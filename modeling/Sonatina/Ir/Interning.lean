import Sonatina.Ir.Run

/-!
# Immediate Interning

`DataFlowGraph::make_imm_value` interns immediates through the map `immediates`: the first call
for an immediate pushes an immediate value and records it, every later call returns the
recorded value. That this is an interning, one value per immediate and one immediate per value,
rests on an invariant of every reachable graph: the map points only at immediate values that
carry the key and its type (`InternInv`). Only `make_imm_value` writes the map, and only at a
missing key; the value arena is append-only and never rewritten (`Sonatina.Ir.Run`).

## Main results

* `internInv_apply`, `Reachable.internInv`: the invariant holds along every run.
* `makeImmValue_interned`: the interning law, over every reachable graph and every later graph.
-/

namespace Sonatina

open DataFlowGraph

/-- The interning map points only at immediate values carrying the key and its type. -/
def InternInv (dfg : DataFlowGraph) : Prop :=
  ∀ imm value, dfg.immediates imm = some value →
    dfg.valueData? value = some (.immediate imm imm.ty)

namespace DataFlowGraph

variable {dfg dfg' : DataFlowGraph} {op : DfgOp}

/-- The empty graph interns nothing. -/
theorem internInv_new : InternInv DataFlowGraph.new := fun _ _ h => nomatch h

/-- One method call keeps the interning invariant. -/
theorem internInv_apply (hinv : InternInv dfg) (h : dfg.apply op = some dfg') :
    InternInv dfg' := by
  intro imm value hi
  rcases apply_immediates h with himm | ⟨imm', -, hvals, himm⟩
  · rw [himm] at hi
    exact valueData?_apply h (hinv imm value hi)
  · rw [himm, Function.update_apply] at hi
    split_ifs at hi with heq
    · subst heq
      cases hi
      simp [valueData?, hvals]
    · exact valueData?_apply h (hinv imm value hi)

/-- Along any run the interning invariant is kept. -/
theorem internInv_of_reachableFrom (h : dfg.ReachableFrom dfg') (hinv : InternInv dfg) :
    InternInv dfg' := by
  induction h with
  | refl => exact hinv
  | tail _ hstep ih => obtain ⟨op, hop⟩ := hstep; exact internInv_apply ih hop

/-- Every reachable graph keeps the interning invariant. -/
theorem Reachable.internInv (h : dfg.Reachable) : InternInv dfg :=
  internInv_of_reachableFrom h internInv_new

/-- An interned immediate stays interned to the same value. -/
theorem immediates_apply {imm : Immediate} {value : Value} (h : dfg.apply op = some dfg')
    (hi : dfg.immediates imm = some value) : dfg'.immediates imm = some value := by
  rcases apply_immediates h with himm | ⟨imm', hnone, -, himm⟩
  · rwa [himm]
  · rw [himm, Function.update_noteq]
    · exact hi
    · rintro rfl; rw [hnone] at hi; cases hi

/-- Along any run an interned immediate stays interned to the same value. -/
theorem immediates_of_reachableFrom {imm : Immediate} {value : Value}
    (h : dfg.ReachableFrom dfg') (hi : dfg.immediates imm = some value) :
    dfg'.immediates imm = some value := by
  induction h with
  | refl => exact hi
  | tail _ hstep ih => obtain ⟨op, hop⟩ := hstep; exact immediates_apply hop ih

/-- After `make_imm_value` the immediate is interned to the returned value. -/
theorem makeImmValue_immediates (imm : Immediate) :
    (dfg.makeImmValue imm).1.immediates imm = some (dfg.makeImmValue imm).2 := by
  cases hi : dfg.immediates imm
  · rw [makeImmValue_of_not_interned hi]; simp
  · rw [makeImmValue_of_interned hi]; exact hi

/-- **Immediate interning.** In every graph reachable from the empty one, `make_imm_value x`
returns a value whose immediate is `x` and whose type is `x.ty`; in every graph reached from
the result by any further calls, `make_imm_value x` returns the same value and leaves the graph
unchanged, and `make_imm_value y` returns that value only for `y = x`. -/
theorem makeImmValue_interned (hdfg : dfg.Reachable) (imm : Immediate) :
    let r := dfg.makeImmValue imm
    (∀ gvStore, r.1.valueImm gvStore r.2 = some imm) ∧ r.1.valueTy r.2 = some imm.ty ∧
      (∀ dfg', r.1.ReachableFrom dfg' → dfg'.makeImmValue imm = (dfg', r.2)) ∧
      (∀ dfg' imm', r.1.ReachableFrom dfg' → (dfg'.makeImmValue imm').2 = r.2 → imm' = imm) := by
  intro r
  have hreach : r.1.Reachable := ReachableFrom.tail hdfg ⟨.makeImmValue imm, rfl⟩
  have hdata : r.1.valueData? r.2 = some (.immediate imm imm.ty) :=
    hreach.internInv imm r.2 (makeImmValue_immediates imm)
  refine ⟨fun _ => by simp [valueImm, hdata], by simp [valueTy, hdata, ValueData.ty],
    fun dfg' h' => makeImmValue_of_interned
      (immediates_of_reachableFrom h' (makeImmValue_immediates imm)), fun dfg' imm' h' heq => ?_⟩
  have h'' : r.1.ReachableFrom (dfg'.makeImmValue imm').1 :=
    ReachableFrom.tail h' ⟨.makeImmValue imm', rfl⟩
  have hinv := Reachable.internInv (ReachableFrom.trans hreach h'') imm' _
    (makeImmValue_immediates imm')
  rw [heq, valueData?_of_reachableFrom h'' hdata] at hinv
  cases hinv
  rfl

/-- The interning law on the empty graph, for the immediate `1 : i8`. -/
theorem makeImmValue_interned_on_new :
    let r := DataFlowGraph.new.makeImmValue (.i8 1)
    (∀ gvStore, r.1.valueImm gvStore r.2 = some (.i8 1)) ∧ r.1.valueTy r.2 = some Ty.i8 ∧
      (∀ dfg', r.1.ReachableFrom dfg' → dfg'.makeImmValue (.i8 1) = (dfg', r.2)) ∧
      (∀ dfg' imm', r.1.ReachableFrom dfg' → (dfg'.makeImmValue imm').2 = r.2 →
        imm' = .i8 1) :=
  makeImmValue_interned (Relation.ReflTransGen.refl : DataFlowGraph.new.Reachable) (.i8 1)

end DataFlowGraph

end Sonatina
