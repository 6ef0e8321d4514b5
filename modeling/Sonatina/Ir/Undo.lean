import Sonatina.Ir.Users

/-!
# Undoing Rewrites

Optimisation passes rewrite instructions in place through `replace_insn`, `replace_insn_arg` and
`change_to_alias`, each of which keeps user-set consistency (`Sonatina.Ir.Users`). On a
consistent graph the user sets are a function of the instruction arena
(`users_eq_of_usersConsistent`), so a consistent graph is determined by its arenas and maps other
than the users. This gives the undo laws of the three rewrites: writing back the operand that
`replace_insn_arg` returned, or the data that `replace_insn` replaced, or aliasing back to the
value when the alias had no users, restores the graph exactly, user sets included.

Consistency is needed. On a graph that misses a user edge, as after
`removePhiArg_drops_live_user`, the rewrite and its undo record the missing edge, and the graph
comes back with a user it did not have.

## Main results

* `replaceInsnArg_undo`: writing back the returned operand undoes `replace_insn_arg`.
* `replaceInsn_undo`: writing back the old data undoes `replace_insn`.
* `changeToAlias_undo`: aliasing back undoes `change_to_alias` to an alias no instruction uses.
-/

namespace Sonatina

namespace DataFlowGraph

variable {dfg dfg' : DataFlowGraph} {insn : Insn}

/-- **Consistent user sets are determined by the instructions.** Two graphs with the same
instruction arena and consistent user sets have the same user sets. -/
theorem users_eq_of_usersConsistent (h : UsersConsistent dfg) (h' : UsersConsistent dfg')
    (hinsns : dfg'.insns = dfg.insns) : dfg'.users = dfg.users := by
  funext v
  ext i
  rw [h', h]
  simp only [operands, insnData?, hinsns]

/-- Two graphs with consistent user sets that agree on everything but the user sets are equal. -/
theorem eq_of_usersConsistent (h : UsersConsistent dfg) (h' : UsersConsistent dfg')
    (hblocks : dfg'.blocks = dfg.blocks) (hvalues : dfg'.values = dfg.values)
    (hinsns : dfg'.insns = dfg.insns) (hresults : dfg'.insnResults = dfg.insnResults)
    (himm : dfg'.immediates = dfg.immediates) : dfg' = dfg := by
  have husers := users_eq_of_usersConsistent h h' hinsns
  cases dfg
  cases dfg'
  simp only [mk.injEq]
  exact ⟨hblocks, hvalues, hinsns, hresults, himm, husers⟩

/-- Under consistency `change_to_alias` rewrites every instruction, users or not, through the
replacement of the value: an instruction that is no user has no occurrence of it. -/
theorem insnData?_changeToAlias {value aliasValue : Value} (hinv : UsersConsistent dfg)
    (h : dfg.changeToAlias value aliasValue = some dfg') (i : Insn) :
    dfg'.insnData? i =
      (dfg.insnData? i).map (InsnData.mapArgs fun a => if a = value then aliasValue else a) := by
  obtain ⟨-, rfl⟩ := changeToAlias_eq_some.1 h
  simp only [insnData?, List.getElem?_mapIdx]
  cases hd : dfg.insns[i.index]? with
  | none => rfl
  | some d =>
      simp only [Option.map_some']
      split_ifs with hi
      · rfl
      · refine congrArg some (InsnData.mapArgs_eq_self fun a ha => if_neg ?_).symm
        rintro rfl
        rw [hinv, operands_of_insnData? hd] at hi
        exact hi ha

/-- **Writing back the operand undoes `replace_insn_arg`.** On a graph whose user sets are
consistent, after a successful `replace_insn_arg(insn, newArg, idx)` that returned `oldArg`,
`replace_insn_arg(insn, oldArg, idx)` succeeds, returns `newArg`, and restores the graph
exactly. -/
theorem replaceInsnArg_undo {newArg oldArg : Value} {idx : Nat} (hinv : UsersConsistent dfg)
    (h : dfg.replaceInsnArg insn newArg idx = some (dfg', oldArg)) :
    dfg'.replaceInsnArg insn oldArg idx = some (dfg, newArg) := by
  obtain ⟨data, hdata, hold, hr⟩ := replaceInsnArg_eq_some.1 h
  simp only at hold hr
  have hdata' : dfg'.insnData? insn = some (data.setArg idx newArg) := by
    rw [insnData?_set hdata (by rw [hr]), if_pos rfl]
  have hnew : (data.setArg idx newArg).args[idx]? = some newArg := by
    rw [InsnData.args_setArg, List.getElem?_set_self (List.getElem?_eq_some_iff.1 hold).1]
  obtain ⟨dfg'', h₂⟩ : ∃ dfg'', dfg'.replaceInsnArg insn oldArg idx = some (dfg'', newArg) := by
    simp only [replaceInsnArg, hdata', hnew, bind, Option.some_bind, pure]
    exact ⟨_, rfl⟩
  have hc := usersConsistent_replaceInsnArg (usersConsistent_replaceInsnArg hinv h) h₂
  obtain ⟨data', hdata'', -, hr''⟩ := replaceInsnArg_eq_some.1 h₂
  obtain rfl := Option.some.inj (hdata''.symm.trans hdata')
  simp only at hr'' hc
  rw [h₂, eq_of_usersConsistent hinv hc (by rw [hr'', hr]) (by rw [hr'', hr]) ?_
    (by rw [hr'', hr]) (by rw [hr'', hr])]
  rw [hr'', hr]
  simp only [List.set_set, InsnData.setArg_setArg, InsnData.setArg_of_getElem? hold]
  exact List.set_of_getElem? hdata

/-- **Writing back the old data undoes `replace_insn`.** On a graph whose user sets are
consistent, after a successful `replace_insn(insn, data)`, replacing the instruction's data with
its old data succeeds and restores the graph exactly. -/
theorem replaceInsn_undo {old data : InsnData} (hinv : UsersConsistent dfg)
    (hold : dfg.insnData? insn = some old) (h : dfg.replaceInsn insn data = some dfg') :
    dfg'.replaceInsn insn old = some dfg := by
  have hdata : dfg'.insnData? insn = some data := by
    obtain ⟨_, hold', rfl⟩ := replaceInsn_eq_some.1 h
    rw [insnData?_set hold' rfl, if_pos rfl]
  obtain ⟨dfg'', h₂⟩ : ∃ dfg'', dfg'.replaceInsn insn old = some dfg'' :=
    ⟨_, replaceInsn_eq_some.2 ⟨_, hdata, rfl⟩⟩
  have hc := usersConsistent_replaceInsn (usersConsistent_replaceInsn hinv h) h₂
  obtain ⟨old', hold', rfl⟩ := replaceInsn_eq_some.1 h
  obtain rfl := Option.some.inj (hold'.symm.trans hold)
  obtain ⟨data', hdata', rfl⟩ := replaceInsn_eq_some.1 h₂
  rw [h₂, eq_of_usersConsistent hinv hc rfl rfl ?_ rfl rfl]
  simp only [List.set_set]
  exact List.set_of_getElem? hold

/-- On a graph with consistent user sets `change_to_alias` does not panic: every recorded user is
an instruction of the arena. -/
theorem changeToAlias_of_usersConsistent (hinv : UsersConsistent dfg) (value aliasValue : Value) :
    ∃ dfg', dfg.changeToAlias value aliasValue = some dfg' := by
  refine ⟨_, changeToAlias_eq_some.2 ⟨fun i hi => ?_, rfl⟩⟩
  by_contra hge
  rw [hinv, operands_of_length_le (Nat.le_of_not_lt hge)] at hi
  exact List.not_mem_nil _ hi

/-- **Aliasing back undoes `change_to_alias`.** On a graph whose user sets are consistent, after
`change_to_alias(value, aliasValue)` to an alias that no instruction uses,
`change_to_alias(aliasValue, value)` succeeds and restores the graph exactly. -/
theorem changeToAlias_undo {value aliasValue : Value} (hinv : UsersConsistent dfg)
    (hunused : dfg.users aliasValue = ∅) (h : dfg.changeToAlias value aliasValue = some dfg') :
    dfg'.changeToAlias aliasValue value = some dfg := by
  have hc := usersConsistent_changeToAlias hinv h
  obtain ⟨dfg'', h₂⟩ := changeToAlias_of_usersConsistent hc aliasValue value
  obtain ⟨-, hd'⟩ := changeToAlias_eq_some.1 h
  obtain ⟨-, hd''⟩ := changeToAlias_eq_some.1 h₂
  rw [h₂, eq_of_usersConsistent hinv (usersConsistent_changeToAlias hc h₂) (by rw [hd'', hd'])
    (by rw [hd'', hd']) ?_ (by rw [hd'', hd']) (by rw [hd'', hd'])]
  refine List.ext_getElem? fun j => ?_
  rw [← insnData?, ← insnData?, insnData?_changeToAlias hc h₂, insnData?_changeToAlias hinv h]
  cases hd : dfg.insnData? ⟨j⟩ with
  | none => rfl
  | some d =>
      refine congrArg some ((InsnData.mapArgs_mapArgs _ _ d).trans
        (InsnData.mapArgs_eq_self fun x hx => ?_))
      have hxa : x ≠ aliasValue := fun hxa => by
        have := (hinv aliasValue ⟨j⟩).2 (by rw [operands_of_insnData? hd, ← hxa]; exact hx)
        rw [hunused] at this
        exact Finset.not_mem_empty _ this
      by_cases hxv : x = value <;> simp [hxv, hxa]

end DataFlowGraph

open DataFlowGraph

/-- On `repeatedPhiArgGraph`, writing `v1` into the first entry of the phi and then `v0` back
restores the graph. -/
theorem replaceInsnArg_undo_phi :
    ∃ dfg', repeatedPhiArgGraph.replaceInsnArg ⟨0⟩ ⟨1⟩ 0 = some (dfg', ⟨0⟩) ∧
      dfg'.replaceInsnArg ⟨0⟩ ⟨0⟩ 0 = some (repeatedPhiArgGraph, ⟨1⟩) :=
  have h : repeatedPhiArgGraph.replaceInsnArg ⟨0⟩ ⟨1⟩ 0 = some (_, ⟨0⟩) := rfl
  ⟨_, h, replaceInsnArg_undo usersConsistent_repeatedPhiArgGraph h⟩

/- Without consistency the undo is not exact: after the removal of
`removePhiArg_drops_live_user`, where `v0` has no users, writing `v1` and then `v0` back into the
phi leaves the phi among the users of `v0`. -/
example : ((repeatedPhiArgGraph.removePhiArg ⟨0⟩ ⟨0⟩).bind fun r =>
    (r.1.replaceInsnArg ⟨0⟩ ⟨1⟩ 0).bind fun r =>
      (r.1.replaceInsnArg ⟨0⟩ ⟨0⟩ 0).map fun r => r.1.users ⟨0⟩) = some {⟨0⟩} := by
  decide

/-- On `repeatedPhiArgGraph`, replacing the phi by `not v1` and then by the phi again restores the
graph. -/
theorem replaceInsn_undo_phi :
    ∃ dfg', repeatedPhiArgGraph.replaceInsn ⟨0⟩ (.unary .not ⟨1⟩) = some dfg' ∧
      dfg'.replaceInsn ⟨0⟩ (.phi [⟨0⟩, ⟨0⟩] [⟨0⟩, ⟨1⟩] .i8) = some repeatedPhiArgGraph :=
  have h : repeatedPhiArgGraph.replaceInsn ⟨0⟩ (.unary .not ⟨1⟩) = some _ := rfl
  ⟨_, h, replaceInsn_undo usersConsistent_repeatedPhiArgGraph rfl h⟩

/-- On `repeatedPhiArgGraph`, where `v1` has no users, aliasing `v0` to `v1` and back restores the
graph. -/
theorem changeToAlias_undo_phi :
    ∃ dfg', repeatedPhiArgGraph.changeToAlias ⟨0⟩ ⟨1⟩ = some dfg' ∧
      dfg'.changeToAlias ⟨1⟩ ⟨0⟩ = some repeatedPhiArgGraph :=
  have h : repeatedPhiArgGraph.changeToAlias ⟨0⟩ ⟨1⟩ = some _ := rfl
  ⟨_, h, changeToAlias_undo usersConsistent_repeatedPhiArgGraph (by decide) h⟩

/- The alias must be unused: once the phi takes `v0` and `v1`, aliasing `v0` to `v1` and back
leaves it taking `v0` twice. -/
example : ((repeatedPhiArgGraph.replaceInsnArg ⟨0⟩ ⟨1⟩ 1).bind fun r =>
    (r.1.changeToAlias ⟨0⟩ ⟨1⟩).bind fun dfg =>
      (dfg.changeToAlias ⟨1⟩ ⟨0⟩).map fun dfg => dfg.insnData? ⟨0⟩) =
    some (some (.phi [⟨0⟩, ⟨0⟩] [⟨0⟩, ⟨1⟩] .i8)) := by
  decide

end Sonatina
