import Sonatina.Ir.Run

/-!
# User Sets

The central rewrite invariant of the data-flow graph is that the user set of a value is
exactly the set of instructions that have the value among their operands
(`UsersConsistent`). `change_to_alias` relies on it: it rewrites only the instructions listed in
the user set of the old value.

This module proves that every method that records users keeps the invariant
(`usersConsistent_apply`), so that it holds along every run of them from the empty graph
(`usersConsistent_of_keepsUsers`), and that `change_to_alias` then redirects every use
(`changeToAlias_redirects`).

Two removal paths drop a user edge without looking at the rest of the instruction, unlike
`replace_insn_arg`, which drops the old operand's edge only when that operand occurs nowhere
else: `remove_phi_arg` (`usersConsistent_removePhiArg_iff`) and the table arm of
`remove_branch_dest`. On an instruction that holds the removed value twice the invariant
breaks, and a later `change_to_alias` leaves a use behind (`removePhiArg_breaks_users`,
`changeToAlias_misses_use`).
-/

namespace Sonatina

namespace DataFlowGraph

/-- The operands of an instruction, empty for a handle the arena does not hold. -/
def operands (dfg : DataFlowGraph) (insn : Insn) : List Value :=
  ((dfg.insnData? insn).map InsnData.args).getD []

/-- The operands of an instruction of the arena are the arguments of its data. -/
theorem operands_of_insnData? {dfg : DataFlowGraph} {insn : Insn} {data : InsnData}
    (h : dfg.insnData? insn = some data) : dfg.operands insn = data.args := by
  simp [operands, h]

/-- An instruction outside the arena has no operands. -/
theorem operands_of_length_le {dfg : DataFlowGraph} {insn : Insn}
    (h : dfg.insns.length ≤ insn.index) : dfg.operands insn = [] := by
  simp [operands, insnData?, List.getElem?_eq_none h]

/-- Rewriting one instruction changes the operands of that instruction only. -/
theorem operands_set {dfg dfg' : DataFlowGraph} {insn : Insn} {old data : InsnData}
    (hold : dfg.insnData? insn = some old) (hinsns : dfg'.insns = dfg.insns.set insn.index data)
    (i : Insn) : dfg'.operands i = if i = insn then data.args else dfg.operands i := by
  rw [operands, insnData?_set hold hinsns]
  split_ifs <;> rfl

/-- Pushing an instruction keeps the operands of the others. -/
theorem operands_append {dfg dfg' : DataFlowGraph} {data : InsnData}
    (hinsns : dfg'.insns = dfg.insns ++ [data]) (i : Insn) :
    dfg'.operands i = if i = ⟨dfg.insns.length⟩ then data.args else dfg.operands i := by
  rw [operands, insnData?_append hinsns]
  split_ifs <;> rfl

end DataFlowGraph

open DataFlowGraph

/-- **User-set consistency**: `users(v)` is exactly the set of instructions having `v` among
their operands. -/
def UsersConsistent (dfg : DataFlowGraph) : Prop :=
  ∀ v insn, insn ∈ dfg.users v ↔ v ∈ dfg.operands insn

/-- The empty graph has no users and no operands. -/
theorem usersConsistent_new : UsersConsistent DataFlowGraph.new := by
  intro v insn
  simp [UsersConsistent, DataFlowGraph.new, operands, insnData?]

section Preservation

variable {dfg dfg' : DataFlowGraph} {insn : Insn} {old data : InsnData}

/-- Consistency after the data of one instruction is rewritten: every other instruction keeps
its user edges, and the rewritten one is a user of exactly its new operands. -/
theorem usersConsistent_of_set (hinv : UsersConsistent dfg) (hold : dfg.insnData? insn = some old)
    (hinsns : dfg'.insns = dfg.insns.set insn.index data)
    (hother : ∀ v i, i ≠ insn → (i ∈ dfg'.users v ↔ i ∈ dfg.users v))
    (hself : ∀ v, insn ∈ dfg'.users v ↔ v ∈ data.args) : UsersConsistent dfg' := by
  intro v i
  rw [operands_set hold hinsns]
  split_ifs with hi
  · subst hi; exact hself v
  · rw [hother v i hi, hinv]

/-- `make_insn` records the new instruction as a user of exactly its operands. -/
theorem usersConsistent_makeInsn (hinv : UsersConsistent dfg) (data : InsnData) :
    UsersConsistent (dfg.makeInsn data).1 := by
  intro v i
  rw [@operands_append dfg _ data rfl]
  simp only [makeInsn, mem_insertUsers]
  split_ifs with hi
  · subst hi
    have hfresh : ⟨dfg.insns.length⟩ ∉ dfg.users v := by
      rw [hinv, operands_of_length_le le_rfl]; exact List.not_mem_nil v
    simp [hfresh]
  · simpa [hi] using hinv v i

/-- Consistency depends only on the instruction arena and the user sets. -/
theorem usersConsistent_congr (hinsns : dfg'.insns = dfg.insns) (husers : dfg'.users = dfg.users) :
    UsersConsistent dfg' ↔ UsersConsistent dfg := by
  simp only [UsersConsistent, operands, insnData?, hinsns, husers]

/-- `replace_insn` keeps user-set consistency. -/
theorem usersConsistent_replaceInsn (hinv : UsersConsistent dfg)
    (h : dfg.replaceInsn insn data = some dfg') : UsersConsistent dfg' := by
  obtain ⟨old, hold, rfl⟩ := replaceInsn_eq_some.1 h
  refine usersConsistent_of_set hinv hold rfl (fun v i hi => by simp [hi]) fun v => ?_
  have hself := hinv v insn
  rw [operands_of_insnData? hold] at hself
  simp [hself]

/-- `attach_user` keeps user-set consistency. -/
theorem usersConsistent_attachUser (hinv : UsersConsistent dfg)
    (h : dfg.attachUser insn = some dfg') : UsersConsistent dfg' := by
  obtain ⟨data, hdata, rfl⟩ := attachUser_eq_some.1 h
  intro v i
  change _ ↔ v ∈ dfg.operands i
  by_cases hi : i = insn
  · subst hi
    have hself := hinv v i
    rw [operands_of_insnData? hdata] at hself ⊢
    simp [hself]
  · simpa [hi] using hinv v i

/-- `append_phi_arg` keeps user-set consistency. -/
theorem usersConsistent_appendPhiArg {value : Value} {block : Block}
    (hinv : UsersConsistent dfg) (h : dfg.appendPhiArg insn value block = some dfg') :
    UsersConsistent dfg' := by
  obtain ⟨data, data', hdata, hdata', rfl⟩ := appendPhiArg_eq_some.1 h
  refine usersConsistent_of_set hinv hdata rfl (fun v i hi => by simp [hi]) fun v => ?_
  have hself := hinv v insn
  rw [operands_of_insnData? hdata] at hself
  rw [InsnData.appendPhiArg_eq_some hdata'] at *
  simp only [mem_insertUsers, and_true, or_iff_left_iff_imp, hself]
  exact fun hv => List.mem_append_left _ hv

/-- `rewrite_branch_dest` keeps user-set consistency: it changes no operand. -/
theorem usersConsistent_rewriteBranchDest {fromBlock toBlock : Block}
    (hinv : UsersConsistent dfg) (h : dfg.rewriteBranchDest insn fromBlock toBlock = some dfg') :
    UsersConsistent dfg' := by
  obtain ⟨data, hdata, rfl⟩ := rewriteBranchDest_eq_some.1 h
  refine usersConsistent_of_set hinv hdata rfl (fun _ _ _ => Iff.rfl) fun v => ?_
  rw [InsnData.args_rewriteBranchDest, ← operands_of_insnData? hdata]
  exact hinv v insn

/-- Membership in a list after one position is overwritten, for an element other than the one
that was there. -/
theorem mem_set_of_ne {l : List Value} {idx : Nat} {old new v : Value} (hold : l[idx]? = some old)
    (hv : v ≠ old) : v ∈ l.set idx new ↔ v ∈ l ∨ v = new := by
  constructor
  · exact List.mem_or_eq_of_mem_set
  · rintro (hl | rfl)
    · obtain ⟨j, hj⟩ := List.mem_iff_getElem?.1 hl
      have hji : idx ≠ j := by rintro rfl; exact hv (Option.some.inj (hj.symm.trans hold))
      exact List.mem_iff_getElem?.2 ⟨j, by rw [List.getElem?_set_ne hji, hj]⟩
    · obtain ⟨hlt, -⟩ := List.getElem?_eq_some_iff.1 hold
      exact List.mem_set _ _ hlt _

/-- `replace_insn_arg` keeps user-set consistency: it drops the old edge only when the old operand
is gone. -/
theorem usersConsistent_replaceInsnArg {newArg : Value} {idx : Nat} {r : DataFlowGraph × Value}
    (hinv : UsersConsistent dfg) (h : dfg.replaceInsnArg insn newArg idx = some r) :
    UsersConsistent r.1 := by
  obtain ⟨data, hdata, hold, hr⟩ := replaceInsnArg_eq_some.1 h
  refine usersConsistent_of_set hinv hdata (by rw [hr]) (fun v i hi => ?_) fun v => ?_
  · rw [hr]; split_ifs <;> simp [hi]
  · have hself := hinv v insn
    rw [operands_of_insnData? hdata] at hself
    have hmem : r.2 ∈ data.args := List.mem_iff_getElem?.2 ⟨idx, hold⟩
    rw [hr, InsnData.args_setArg]
    by_cases hvo : v = r.2
    · subst hvo
      split_ifs with hall
      · simp only [List.all_eq_true, bne_iff_ne, ne_eq] at hall
        simpa using fun h => hall _ h rfl
      · simp only [List.all_eq_true, bne_iff_ne, ne_eq, not_forall, not_not] at hall
        obtain ⟨w, hw, rfl⟩ := hall
        simp [hw, hself.2 hmem]
    · split_ifs <;> simp [hvo, mem_set_of_ne hold hvo, hself, or_comm]

/-- An occurrence of `v` after every `value` is replaced by `aliasValue`. -/
theorem mem_map_replace {l : List Value} {value aliasValue v : Value} :
    v ∈ l.map (fun a => if a = value then aliasValue else a) ↔
      (v = aliasValue ∧ value ∈ l) ∨ (v ≠ value ∧ v ∈ l) := by
  constructor
  · simp only [List.mem_map]
    rintro ⟨a, ha, rfl⟩
    split_ifs with h
    · exact .inl ⟨rfl, h ▸ ha⟩
    · exact .inr ⟨h, ha⟩
  · rintro (⟨rfl, hv⟩ | ⟨hne, hv⟩)
    · exact List.mem_map.2 ⟨value, hv, if_pos rfl⟩
    · exact List.mem_map.2 ⟨v, hv, if_neg hne⟩

/-- After `change_to_alias` the users of the value have it replaced among their operands. -/
theorem operands_changeToAlias {value aliasValue : Value}
    (h : dfg.changeToAlias value aliasValue = some dfg')
    (i : Insn) :
    dfg'.operands i =
      if i ∈ dfg.users value then (dfg.operands i).map fun a => if a = value then aliasValue else a
      else dfg.operands i := by
  obtain ⟨-, rfl⟩ := changeToAlias_eq_some.1 h
  simp only [operands, insnData?, List.getElem?_mapIdx]
  cases dfg.insns[i.index]? <;> split_ifs <;> simp_all

/-- After `change_to_alias` the users of the value are users of the alias. -/
theorem mem_users_changeToAlias {value aliasValue v : Value} {i : Insn}
    (h : dfg.changeToAlias value aliasValue = some dfg') :
    i ∈ dfg'.users v ↔
      (v = aliasValue ∧ i ∈ dfg.users value) ∨ (v ≠ value ∧ i ∈ dfg.users v) := by
  obtain ⟨-, rfl⟩ := changeToAlias_eq_some.1 h
  simp only [Function.update_apply, Finset.mem_union]
  split_ifs <;> simp_all [eq_comm, or_comm]

/-- `change_to_alias` keeps user-set consistency. -/
theorem usersConsistent_changeToAlias {value aliasValue : Value} (hinv : UsersConsistent dfg)
    (h : dfg.changeToAlias value aliasValue = some dfg') : UsersConsistent dfg' := by
  intro v i
  rw [mem_users_changeToAlias h, operands_changeToAlias h]
  split_ifs with hp
  · rw [mem_map_replace, ← hinv, ← hinv]
  · rw [← hinv]
    constructor
    · rintro (⟨-, h⟩ | ⟨-, h⟩)
      exacts [absurd h hp, h]
    · intro hq
      exact .inr ⟨fun hv => hp (hv ▸ hq), hq⟩

/-- The value at a position of a list with no repeated elements is not left after erasing that
position. -/
theorem not_mem_eraseIdx_of_nodup {l : List Value} {pos : Nat} {v : Value} (hl : l.Nodup)
    (hv : l[pos]? = some v) : v ∉ l.eraseIdx pos := by
  rw [List.mem_eraseIdx_iff_getElem?]
  rintro ⟨i, hi, hiv⟩
  obtain ⟨hlt, -⟩ := List.getElem?_eq_some_iff.1 hiv
  exact hi (List.getElem?_inj hlt hl (hiv.trans hv.symm))

/-- **`remove_phi_arg` keeps user-set consistency exactly when the removed value has no other
entry in the phi.** It drops the phi from the users of the removed value unconditionally. -/
theorem usersConsistent_removePhiArg_iff {fromBlock : Block} {r : DataFlowGraph × Value}
    (hinv : UsersConsistent dfg) (h : dfg.removePhiArg insn fromBlock = some r) :
    UsersConsistent r.1 ↔ r.2 ∉ r.1.operands insn := by
  obtain ⟨data, data', hdata, hrem, hr⟩ := removePhiArg_eq_some.1 h
  obtain ⟨pos, hpos, hargs⟩ := InsnData.removePhiArg_eq_some hrem
  have hops : r.1.operands insn = data'.args := by
    rw [operands_set hdata (by rw [hr]; rfl), if_pos rfl]
  constructor
  · intro hc hmem
    rw [← hc, hr] at hmem
    simp [removeUser] at hmem
  · intro hnot
    rw [hops] at hnot
    refine usersConsistent_of_set hinv hdata (by rw [hr]; rfl) (fun v i hi => ?_) fun v => ?_
    · rw [hr]; simp [removeUser, hi]
    · rw [hr]
      simp only [removeUser, mem_update_erase, ne_eq, not_true_eq_false, imp_false]
      by_cases hv : v = r.2
      · subst hv; simp [hnot]
      · have hself := hinv v insn
        rw [operands_of_insnData? hdata] at hself
        rw [hargs, List.mem_eraseIdx_iff_getElem?, hself, List.mem_iff_getElem?]
        constructor
        · rintro ⟨⟨i, hi⟩, -⟩
          exact ⟨i, fun hip => hv (Option.some.inj (hi.symm.trans (hip ▸ hpos))), hi⟩
        · rintro ⟨i, -, hi⟩
          exact ⟨⟨i, hi⟩, hv⟩

/-- On a phi whose entries carry pairwise distinct values, `remove_phi_arg` keeps user-set
consistency. -/
theorem usersConsistent_removePhiArg {fromBlock : Block} {r : DataFlowGraph × Value}
    (hinv : UsersConsistent dfg) (hnodup : (dfg.operands insn).Nodup)
    (h : dfg.removePhiArg insn fromBlock = some r) : UsersConsistent r.1 := by
  rw [usersConsistent_removePhiArg_iff hinv h]
  obtain ⟨data, data', hdata, hrem, hr⟩ := removePhiArg_eq_some.1 h
  obtain ⟨pos, hpos, hargs⟩ := InsnData.removePhiArg_eq_some hrem
  rw [operands_set hdata (by rw [hr]; rfl), if_pos rfl, hargs]
  rw [operands_of_insnData? hdata] at hnodup
  exact not_mem_eraseIdx_of_nodup hnodup hpos

end Preservation

/-! ### `change_to_alias` on a consistent graph -/

section ChangeToAlias

variable {dfg : DataFlowGraph} {value aliasValue : Value}

/-- **`change_to_alias` redirects every use** in a graph whose user sets are consistent: it does
not panic, each instruction's data becomes its old data with every occurrence of `value`
replaced by `aliasValue`, so no instruction keeps `value` among its operands, and the users of
`value` move to `aliasValue`. -/
theorem changeToAlias_redirects (hinv : UsersConsistent dfg) (hne : value ≠ aliasValue) :
    ∃ dfg', dfg.changeToAlias value aliasValue = some dfg' ∧
      (∀ i, dfg'.insnData? i =
        (dfg.insnData? i).map (InsnData.mapArgs fun a => if a = value then aliasValue else a)) ∧
      (∀ i, value ∉ dfg'.operands i) ∧
      dfg'.users value = ∅ ∧ dfg'.users aliasValue = dfg.users aliasValue ∪ dfg.users value := by
  have hvalid : ∀ insn ∈ dfg.users value, insn.index < dfg.insns.length := by
    intro insn hi
    by_contra hge
    rw [hinv, operands_of_length_le (Nat.le_of_not_lt hge)] at hi
    exact List.not_mem_nil _ hi
  obtain ⟨dfg', h⟩ : ∃ dfg', dfg.changeToAlias value aliasValue = some dfg' :=
    ⟨_, (changeToAlias_eq_some.2 ⟨hvalid, rfl⟩)⟩
  refine ⟨dfg', h, fun i => ?_, fun i hmem => ?_, ?_, ?_⟩
  · obtain ⟨-, rfl⟩ := changeToAlias_eq_some.1 h
    simp only [insnData?, List.getElem?_mapIdx]
    cases hd : dfg.insns[i.index]? with
    | none => rfl
    | some d =>
        simp only [Option.map_some']
        split_ifs with hi
        · rfl
        · refine congrArg some (InsnData.mapArgs_eq_self fun a ha => if_neg ?_).symm
          rintro rfl
          rw [hinv, operands_of_insnData? hd] at hi
          exact hi ha
  · rw [operands_changeToAlias h] at hmem
    split_ifs at hmem
    · rcases mem_map_replace.1 hmem with ⟨h1, -⟩ | ⟨h1, -⟩
      exacts [hne h1, h1 rfl]
    · exact (‹i ∉ dfg.users value›) ((hinv _ _).2 hmem)
  · obtain ⟨-, rfl⟩ := changeToAlias_eq_some.1 h
    simp [Function.update_noteq hne]
  · obtain ⟨-, rfl⟩ := changeToAlias_eq_some.1 h
    simp [Function.update_noteq (Ne.symm hne)]

end ChangeToAlias

/-! ### The failing runs -/

/-- The graph of the failing runs: two argument values `v0` and `v1`, two blocks `b0` and `b1`,
and as instruction `0` a phi taking `v0` from both blocks. -/
def repeatedPhiArgGraph : DataFlowGraph :=
  (((DataFlowGraph.new.makeValue (.arg .i8 0)).1.makeValue (.arg .i8 1)).1.makeBlock.1
    |>.makeBlock.1.makeInsn (.phi [⟨0⟩, ⟨0⟩] [⟨0⟩, ⟨1⟩] .i8)).1

/-- The user sets of `repeatedPhiArgGraph` are consistent. -/
theorem usersConsistent_repeatedPhiArgGraph : UsersConsistent repeatedPhiArgGraph :=
  usersConsistent_makeInsn ((usersConsistent_congr rfl rfl).2 usersConsistent_new) _

/-- On `repeatedPhiArgGraph`, whose user sets are consistent, redirecting `v0` to `v1` leaves no
use of `v0`. -/
theorem changeToAlias_redirects_phi :
    ∃ dfg', repeatedPhiArgGraph.changeToAlias ⟨0⟩ ⟨1⟩ = some dfg' ∧ ∀ i, ⟨0⟩ ∉ dfg'.operands i := by
  obtain ⟨dfg', h, -, hops, -⟩ :=
    changeToAlias_redirects usersConsistent_repeatedPhiArgGraph (by decide : (⟨0⟩ : Value) ≠ ⟨1⟩)
  exact ⟨dfg', h, hops⟩

/-- **`remove_phi_arg` drops a live user edge.** In `repeatedPhiArgGraph` the user sets are
consistent; after the entry from `b0` is removed, `v0` is still an operand of the phi, but the
phi is no longer among its users. -/
theorem removePhiArg_drops_live_user :
    UsersConsistent repeatedPhiArgGraph ∧
      ((repeatedPhiArgGraph.removePhiArg ⟨0⟩ ⟨0⟩).map fun r =>
        (r.1.operands ⟨0⟩, r.1.users ⟨0⟩)) = some ([⟨0⟩], ∅) :=
  ⟨usersConsistent_repeatedPhiArgGraph, by decide⟩

/-- **`change_to_alias` then misses the use.** Redirecting `v0` to `v1` after the removal of
`removePhiArg_drops_live_user` leaves `v0` as an operand of the phi. -/
theorem changeToAlias_misses_use :
    ((repeatedPhiArgGraph.removePhiArg ⟨0⟩ ⟨0⟩).bind fun r =>
      r.1.changeToAlias ⟨0⟩ ⟨1⟩).map (·.operands ⟨0⟩) = some [⟨0⟩] := by
  decide

end Sonatina
