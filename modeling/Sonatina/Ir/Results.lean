import Sonatina.Ir.Run

/-!
# Result Values

An instruction's result is a value whose data is `ValueData::Insn { insn, .. }`, and the map
`insn_results` points back from the instruction to it. The two directions are written by two
separate calls, `make_value` and `attach_result`, so that they agree is an invariant of the
callers: `ResultsLinked` says that the map and the value data describe the same pairs, and that
every result belongs to an instruction of the arena.

Every method except the two that write one side of the link keeps the invariant
(`resultsLinked_apply`), and so does the pair of calls that `FuncCursor::insert_insn` makes for a
fresh instruction (`resultsLinked_attachFresh`). The function builder uses the second lemma for
its constructors (`Sonatina.Builder.Results`).

## Main results

* `resultsLinked_apply`, `resultsLinked_of_run`: the invariant along every run of calls that
  link no result.
* `resultsLinked_attachFresh`: pushing the result of an instruction without one and attaching
  it keeps the invariant.
* `ResultsLinked.result_unique`: under the invariant an instruction has at most one result.
-/

namespace Sonatina

open DataFlowGraph

/-- **Results are linked both ways.** The result map and the `Insn` value data describe the
same pairs, and each such pair names an instruction of the arena. -/
structure ResultsLinked (dfg : DataFlowGraph) : Prop where
  linked : ∀ insn value, dfg.insnResult insn = some value ↔ dfg.valueInsn value = some insn
  inArena : ∀ value insn, dfg.valueInsn value = some insn → insn.index < dfg.insns.length

/-- The two calls that write one side of the result link: `make_value` of an `Insn` value and
`attach_result`. -/
def DfgOp.linksResult : DfgOp → Bool
  | .makeValue (.insn ..) | .attachResult .. => true
  | _ => false

/-- The empty graph has no results and no values. -/
theorem resultsLinked_new : ResultsLinked DataFlowGraph.new :=
  ⟨fun _ _ => iff_of_false nofun nofun, fun _ _ => nofun⟩

/-- Under the invariant an instruction has at most one result value. -/
theorem ResultsLinked.result_unique {dfg : DataFlowGraph} (hinv : ResultsLinked dfg)
    {insn : Insn} {v v' : Value} (hv : dfg.valueInsn v = some insn)
    (hv' : dfg.valueInsn v' = some insn) : v = v' := by
  rw [← hinv.linked] at hv hv'
  exact Option.some.inj (hv.symm.trans hv')

namespace DataFlowGraph

variable {dfg dfg' : DataFlowGraph} {op : DfgOp}

/-- The defining instruction of a value is read off the value arena only. -/
theorem valueInsn_congr (h : dfg'.values = dfg.values) : dfg'.valueInsn = dfg.valueInsn := by
  funext v
  simp only [valueInsn, valueData?, h]

/-- Pushing a value that is no instruction result leaves every value's instruction as it was. -/
theorem valueInsn_push {d : ValueData} (h : dfg'.values = dfg.values ++ [d])
    (hd : ∀ insn ty, d ≠ .insn insn ty) : dfg'.valueInsn = dfg.valueInsn := by
  funext v
  simp only [valueInsn, valueData?, h]
  rcases Nat.lt_or_ge v.index dfg.values.length with hlt | hge
  · rw [List.getElem?_append_left hlt]
  · rw [List.getElem?_append_right hge, List.getElem?_eq_none hge]
    cases hk : v.index - dfg.values.length with
    | zero => cases d <;> simp_all
    | succ k => simp

/-- Pushing the result `.insn insn ty` makes the new value's instruction `insn`. -/
theorem valueInsn_makeValue (insn : Insn) (ty : Ty) (v : Value) :
    (dfg.makeValue (.insn insn ty)).1.valueInsn v =
      if v.index = dfg.values.length then some insn else dfg.valueInsn v := by
  simp only [valueInsn, valueData?, makeValue]
  split_ifs with hv
  · rw [hv, List.getElem?_concat_length]
  · rcases Nat.lt_or_ge v.index dfg.values.length with hlt | hge
    · rw [List.getElem?_append_left hlt]
    · rw [List.getElem?_eq_none (by simp; omega), List.getElem?_eq_none hge]

/-- Attaching to an instruction without a result succeeds. -/
theorem attachResult_of_none {insn : Insn} {value : Value} (h : dfg.insnResults insn = none) :
    dfg.attachResult insn value =
      some { dfg with insnResults := Function.update dfg.insnResults insn (some value) } :=
  attachResult_eq_some.2 ⟨h, rfl⟩

/-- Attaching a result leaves the defining instructions of values as they are. -/
theorem valueInsn_attachResult {insn : Insn} {value : Value}
    (h : dfg.attachResult insn value = some dfg') : dfg'.valueInsn = dfg.valueInsn := by
  obtain ⟨-, rfl⟩ := attachResult_eq_some.1 h
  rfl

end DataFlowGraph

open DataFlowGraph

variable {dfg dfg' : DataFlowGraph} {op : DfgOp}

/-- **One call keeps the link.** A call that writes neither side of the link leaves both sides as
they were, up to a pushed value that is no result and instructions added to the arena. -/
theorem resultsLinked_apply (hop : op.linksResult = false) (hinv : ResultsLinked dfg)
    (h : dfg.apply op = some dfg') : ResultsLinked dfg' := by
  have hres : dfg'.insnResults = dfg.insnResults := by
    rcases apply_insnResults h with h' | ⟨_, _, rfl, -⟩
    · exact h'
    · cases hop
  have hvi : dfg'.valueInsn = dfg.valueInsn := by
    rcases apply_values h with h' | ⟨d, h', rfl | hd⟩
    · exact valueInsn_congr h'
    · cases d with
      | insn => cases hop
      | _ => exact valueInsn_push h' nofun
    · exact valueInsn_push h' hd
  refine ⟨fun insn value => ?_, fun value insn hv => ?_⟩
  · rw [insnResult, hres, hvi]
    exact hinv.linked insn value
  · rw [hvi] at hv
    exact lt_of_lt_of_le (hinv.inArena value insn hv) (apply_insns_length h)

/-- The graphs that a run of calls linking no result reaches from `dfg`. -/
def DataFlowGraph.ReachableUnlinked (dfg : DataFlowGraph) : DataFlowGraph → Prop :=
  Relation.ReflTransGen
    (fun d d' => ∃ op : DfgOp, op.linksResult = false ∧ d.apply op = some d') dfg

/-- **The link along a run.** Every graph that a run of calls linking no result reaches from a
linked graph is linked. -/
theorem resultsLinked_of_run (hinv : ResultsLinked dfg) (h : dfg.ReachableUnlinked dfg') :
    ResultsLinked dfg' := by
  induction h with
  | refl => exact hinv
  | tail _ hstep ih =>
      obtain ⟨op, hop, happly⟩ := hstep
      exact resultsLinked_apply hop ih happly

/-- **Attaching a fresh result.** For an instruction of the arena that has no result yet, pushing
the value `.insn insn ty` and attaching it as the instruction's result keeps the link; the
attach never fails there. -/
theorem resultsLinked_attachFresh (hinv : ResultsLinked dfg) {insn : Insn} (ty : Ty)
    (hin : insn.index < dfg.insns.length) (hnone : dfg.insnResult insn = none) :
    ∃ dfg'', (dfg.makeValue (.insn insn ty)).1.attachResult insn
        (dfg.makeValue (.insn insn ty)).2 = some dfg'' ∧ ResultsLinked dfg'' := by
  have hatt : (dfg.makeValue (.insn insn ty)).1.attachResult insn
      (dfg.makeValue (.insn insn ty)).2 = some _ := attachResult_of_none hnone
  refine ⟨_, hatt, fun i v => ?_, fun v i hv => ?_⟩ <;>
    rw [valueInsn_attachResult hatt, valueInsn_makeValue] at *
  · simp only [insnResult, makeValue] at hnone ⊢
    have hout : dfg.valueInsn ⟨dfg.values.length⟩ = none := by simp [valueInsn, valueData?]
    by_cases hi : i = insn
    · subst hi
      rw [Function.update_same]
      by_cases hv : v.index = dfg.values.length
      · simp [hv, Value.ext_iff]
      · rw [if_neg hv, ← hinv.linked, insnResult, hnone]
        simp [Value.ext_iff, Ne.symm hv]
    · rw [Function.update_noteq hi]
      by_cases hv : v.index = dfg.values.length
      · obtain rfl : v = ⟨dfg.values.length⟩ := Value.ext hv
        rw [if_pos rfl, ← insnResult, hinv.linked, hout]
        simp [Ne.symm hi]
      · rw [if_neg hv]
        exact hinv.linked i v
  · split_ifs at hv
    · cases hv; exact hin
    · exact hinv.inArena v i hv

end Sonatina
