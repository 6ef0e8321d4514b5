import Sonatina.Ir.BranchDest

/-!
# Recorded Users Are Operands

User-set consistency (`UsersConsistent`) has two halves. The complete half, that every
instruction using a value is among the value's users, is what `remove_phi_arg` and the table arm
of `remove_branch_dest` break (`Sonatina.Ir.Users`, `Sonatina.Ir.BranchDest`). The sound half
(`UsersSound`), that every recorded user of a value has the value among its operands, survives
every method of `DataFlowGraph`, the two removals included: a method records a user only for an
operand it installs, and it drops an operand only after dropping its edge or when the operand is
still there.

One place needs a hypothesis. The table arm of `remove_branch_dest` zips the table with the case
values, so case values past the end of the table leave the operands with their user edges kept.
No method but `make_insn` and `replace_insn` installs such a `br_table`, and the function builder
never makes one: `br_table` pairs each case value with its block. So soundness holds along every
run whose installed `br_table`s have at most one case value per entry (`FitStep`).

On sound user sets `change_to_alias` cannot panic: it indexes only recorded users, and those lie
in the arena. The misses of `removePhiArg_drops_live_user` and `removeBranchDest_brTable_misses`
are therefore lost edges only, never stale ones.

## Main results

* `soundGraph_apply`: every method keeps sound user sets and fitting tables.
* `usersSound_of_fitRun`: along every fitting run from the empty graph the user sets are sound
  and `change_to_alias` does not panic.
-/

namespace Sonatina

open DataFlowGraph

/-- **Sound user sets**: every recorded user of a value has the value among its operands. -/
def UsersSound (dfg : DataFlowGraph) : Prop :=
  ∀ v insn, insn ∈ dfg.users v → v ∈ dfg.operands insn

namespace InsnData

/-- Whether the case values of an instruction fit its table: a `br_table` has, after its
condition, at most one case value per table entry; any other instruction fits. -/
def tableFits : InsnData → Bool
  | .brTable args _ table => decide (args.length ≤ table.length + 1)
  | _ => true

@[simp] theorem tableFits_mapArgs (f : Value → Value) (d : InsnData) :
    (d.mapArgs f).tableFits = d.tableFits := by
  cases d <;> simp [mapArgs, tableFits]

@[simp] theorem tableFits_setArg (idx : Nat) (v : Value) (d : InsnData) :
    (d.setArg idx v).tableFits = d.tableFits := by
  cases d <;> simp [setArg, tableFits]

@[simp] theorem tableFits_rewriteBranchDest (fromBlock toBlock : Block) (d : InsnData) :
    (d.rewriteBranchDest fromBlock toBlock).tableFits = d.tableFits := by
  cases d <;> simp [rewriteBranchDest, tableFits]

/-- A phi edited by `append_phi_arg` fits. -/
theorem tableFits_of_appendPhiArg {value : Value} {block : Block} {d d' : InsnData}
    (h : d.appendPhiArg value block = some d') : d'.tableFits := by
  cases d <;> cases h
  rfl

/-- A phi edited by `remove_phi_arg` fits. -/
theorem tableFits_of_removePhiArg {fromBlock : Block} {d d' : InsnData} {removed : Value}
    (h : d.removePhiArg fromBlock = some (d', removed)) : d'.tableFits := by
  have hphi := removePhiArg_isPhi h
  cases d' <;> first | rfl | cases hphi

end InsnData

/-- Every instruction of the graph fits its table. -/
def TablesFit (dfg : DataFlowGraph) : Prop :=
  ∀ insn data, dfg.insnData? insn = some data → data.tableFits

/-- **The invariant of fitting runs**: sound user sets and fitting tables. -/
structure SoundGraph (dfg : DataFlowGraph) : Prop where
  sound : UsersSound dfg
  fit : TablesFit dfg

/-- The empty graph records no user and holds no instruction. -/
theorem soundGraph_new : SoundGraph DataFlowGraph.new :=
  ⟨fun _ _ h => absurd h (Finset.not_mem_empty _), fun _ _ h => (nomatch h)⟩

/-- A value other than the one at an erased position is still in the list. -/
theorem mem_eraseIdx_of_ne {l : List Value} {pos : Nat} {a v : Value} (ha : l[pos]? = some a)
    (hv : v ∈ l) (hne : v ≠ a) : v ∈ l.eraseIdx pos := by
  obtain ⟨i, hi⟩ := List.mem_iff_getElem?.1 hv
  exact List.mem_eraseIdx_iff_getElem?.2
    ⟨i, fun hip => hne (Option.some.inj (hi.symm.trans (hip ▸ ha))), hi⟩

/-! ### One method at a time -/

section Preservation

variable {dfg dfg' : DataFlowGraph} {insn : Insn} {old data : InsnData}

/-- A method that leaves the instruction arena alone and records no new user keeps the
invariant. -/
theorem soundGraph_congr (hinv : SoundGraph dfg) (hinsns : dfg'.insns = dfg.insns)
    (husers : ∀ v i, i ∈ dfg'.users v → i ∈ dfg.users v) : SoundGraph dfg' := by
  have hd : ∀ i, dfg'.insnData? i = dfg.insnData? i := fun i => by simp only [insnData?, hinsns]
  refine ⟨fun v i hi => ?_, fun i d => hd i ▸ hinv.fit i d⟩
  rw [operands, hd, ← operands]
  exact hinv.sound v i (husers v i hi)

/-- The invariant after one instruction is rewritten: every other instruction keeps only edges it
had, the rewritten one is recorded only for operands of its new data, and the new data fits. -/
theorem soundGraph_of_set (hinv : SoundGraph dfg) (hold : dfg.insnData? insn = some old)
    (hinsns : dfg'.insns = dfg.insns.set insn.index data)
    (hother : ∀ v i, i ≠ insn → i ∈ dfg'.users v → i ∈ dfg.users v)
    (hself : ∀ v, insn ∈ dfg'.users v → v ∈ data.args) (hfit : data.tableFits) :
    SoundGraph dfg' := by
  refine ⟨fun v i hi => ?_, fun i d hd => ?_⟩
  · rw [operands_set hold hinsns]
    split_ifs with h
    · subst h; exact hself v hi
    · exact hinv.sound v i (hother v i h hi)
  · rw [insnData?_set hold hinsns] at hd
    split_ifs at hd
    · cases hd; exact hfit
    · exact hinv.fit i d hd

/-- The rewritten instruction was a user only of its old operands. -/
theorem SoundGraph.mem_args (hinv : SoundGraph dfg) (hold : dfg.insnData? insn = some old)
    {v : Value} (hv : insn ∈ dfg.users v) : v ∈ old.args :=
  operands_of_insnData? hold ▸ hinv.sound v insn hv

/-- `make_insn` of fitting data keeps the invariant: the new instruction had no users recorded. -/
theorem soundGraph_makeInsn (hinv : SoundGraph dfg) (hfit : data.tableFits) :
    SoundGraph (dfg.makeInsn data).1 := by
  refine ⟨fun v i hi => ?_, fun i d hd => ?_⟩
  · rw [@operands_append dfg _ data rfl]
    simp only [makeInsn, mem_insertUsers] at hi
    split_ifs with h
    · rcases hi with ⟨hv, -⟩ | hi
      · exact hv
      · have hv := hinv.sound v i hi
        rw [h, operands_of_length_le le_rfl] at hv
        exact absurd hv (List.not_mem_nil v)
    · rcases hi with ⟨-, rfl⟩ | hi
      exacts [absurd rfl h, hinv.sound v i hi]
  · rw [@insnData?_append dfg _ data rfl] at hd
    split_ifs at hd
    · cases hd; exact hfit
    · exact hinv.fit i d hd

/-- `change_to_alias` keeps the invariant: a moved user had `value` among its operands, and now
has `aliasValue` in its place. -/
theorem soundGraph_changeToAlias {value aliasValue : Value} (hinv : SoundGraph dfg)
    (h : dfg.changeToAlias value aliasValue = some dfg') : SoundGraph dfg' := by
  refine ⟨fun v i hi => ?_, fun i d hd => ?_⟩
  · rw [mem_users_changeToAlias h] at hi
    rw [operands_changeToAlias h]
    rcases hi with ⟨rfl, hi⟩ | ⟨hne, hi⟩
    · rw [if_pos hi, mem_map_replace]
      exact .inl ⟨rfl, hinv.sound _ _ hi⟩
    · split_ifs
      · exact mem_map_replace.2 (.inr ⟨hne, hinv.sound _ _ hi⟩)
      · exact hinv.sound _ _ hi
  · obtain ⟨-, rfl⟩ := changeToAlias_eq_some.1 h
    simp only [insnData?, List.getElem?_mapIdx] at hd
    obtain ⟨d₀, hd₀, rfl⟩ := Option.map_eq_some'.1 hd
    split_ifs <;> simpa using hinv.fit i d₀ hd₀

/-- `attach_user` keeps the invariant: it records the instruction for its own operands. -/
theorem soundGraph_attachUser (hinv : SoundGraph dfg) (h : dfg.attachUser insn = some dfg') :
    SoundGraph dfg' := by
  obtain ⟨data, hdata, rfl⟩ := attachUser_eq_some.1 h
  refine ⟨fun v i hi => ?_, hinv.fit⟩
  change v ∈ dfg.operands i
  rcases mem_insertUsers.1 hi with ⟨hv, rfl⟩ | hi
  exacts [operands_of_insnData? hdata ▸ hv, hinv.sound v i hi]

/-- `replace_insn` keeps the invariant when the new data fits: the old operands lose their edges
before the new ones get theirs. -/
theorem soundGraph_replaceInsn (hinv : SoundGraph dfg) (hfit : data.tableFits)
    (h : dfg.replaceInsn insn data = some dfg') : SoundGraph dfg' := by
  obtain ⟨old, hold, rfl⟩ := replaceInsn_eq_some.1 h
  refine soundGraph_of_set hinv hold rfl (fun v i hi => by simp [hi]) (fun v hv => ?_) hfit
  rcases mem_insertUsers.1 hv with ⟨hv, -⟩ | hv
  · exact hv
  · exact absurd rfl ((mem_removeUsers.1 hv).2 (hinv.mem_args hold (mem_removeUsers.1 hv).1))

/-- `append_phi_arg` keeps the invariant: the phi's operands only grow. -/
theorem soundGraph_appendPhiArg {value : Value} {block : Block} (hinv : SoundGraph dfg)
    (h : dfg.appendPhiArg insn value block = some dfg') : SoundGraph dfg' := by
  obtain ⟨data, data', hdata, hdata', rfl⟩ := appendPhiArg_eq_some.1 h
  refine soundGraph_of_set hinv hdata rfl (fun v i hi => by simp [hi]) (fun v hv => ?_)
    (InsnData.tableFits_of_appendPhiArg hdata')
  rcases mem_insertUsers.1 hv with ⟨hv, -⟩ | hv
  · exact hv
  · rw [InsnData.appendPhiArg_eq_some hdata']
    exact List.mem_append_left _ (hinv.mem_args hdata hv)

/-- `remove_phi_arg` keeps the invariant: it drops the edge of the value it removes, and every
other operand stays. -/
theorem soundGraph_removePhiArg {fromBlock : Block} {r : DataFlowGraph × Value}
    (hinv : SoundGraph dfg) (h : dfg.removePhiArg insn fromBlock = some r) : SoundGraph r.1 := by
  obtain ⟨data, data', hdata, hrem, hr⟩ := removePhiArg_eq_some.1 h
  obtain ⟨pos, hpos, hargs⟩ := InsnData.removePhiArg_eq_some hrem
  refine soundGraph_of_set hinv hdata (by rw [hr]; rfl) (fun v i hi hv => ?_) (fun v hv => ?_)
    (InsnData.tableFits_of_removePhiArg hrem)
  · rw [hr] at hv
    exact (mem_update_erase.1 hv).1
  · rw [hr] at hv
    obtain ⟨hv, hne⟩ := mem_update_erase.1 hv
    rw [hargs]
    exact mem_eraseIdx_of_ne hpos (hinv.mem_args hdata hv) fun hvr => hne hvr rfl

/-- `replace_insn_arg` keeps the invariant: the new operand is at `idx`, and the old one keeps its
edge only when it occurs elsewhere. -/
theorem soundGraph_replaceInsnArg {newArg : Value} {idx : Nat} {r : DataFlowGraph × Value}
    (hinv : SoundGraph dfg) (h : dfg.replaceInsnArg insn newArg idx = some r) :
    SoundGraph r.1 := by
  obtain ⟨data, hdata, hold, hr⟩ := replaceInsnArg_eq_some.1 h
  have hsub : ∀ v i, i ∈ r.1.users v → (v = newArg ∧ i = insn) ∨ i ∈ dfg.users v := by
    intro v i hi
    rw [hr] at hi
    split_ifs at hi
    · exact mem_update_insert.1 (mem_update_erase.1 hi).1
    · exact mem_update_insert.1 hi
  refine soundGraph_of_set hinv hdata (by rw [hr]) (fun v i hi hv => ?_) (fun v hv => ?_)
    (by simpa using hinv.fit insn data hdata)
  · rcases hsub v i hv with ⟨-, rfl⟩ | hv
    exacts [absurd rfl hi, hv]
  rw [InsnData.args_setArg]
  rcases hsub v insn hv with ⟨rfl, -⟩ | hmem
  · exact List.mem_set _ _ (List.getElem?_eq_some_iff.1 hold).1 _
  by_cases hvo : v = r.2
  · subst hvo
    rw [hr] at hv
    split_ifs at hv with hall
    · exact absurd rfl ((mem_update_erase.1 hv).2 rfl)
    · simp only [List.all_eq_true, bne_iff_ne, ne_eq, not_forall, not_not,
        InsnData.args_setArg] at hall
      obtain ⟨w, hw, rfl⟩ := hall
      exact hw
  · exact (mem_set_of_ne hold hvo).2 (.inl (hinv.mem_args hdata hmem))

/-- The table arm of `remove_branch_dest` on a fitting `br_table` leaves the instruction a user
only of its remaining operands, leaves the other instructions' edges alone, and still fits. -/
theorem removeTableDest_sound {users : Value → Finset Insn} {args : List Value}
    {table : List Block} (dest : Block) (default : Option Block)
    (harity : args.length ≤ table.length + 1)
    (hself : ∀ v, insn ∈ users v → v ∈ args) :
    let r := removeTableDest users insn dest args default table
    (∀ v, insn ∈ r.2 v → v ∈ r.1.args) ∧ (∀ v i, i ≠ insn → (i ∈ r.2 v ↔ i ∈ users v)) ∧
      r.1.tableFits := by
  by_cases hd : some dest = default
  · simp only [removeTableDest_of_default hd, InsnData.args, InsnData.tableFits]
    exact ⟨hself, fun _ _ _ => trivial, decide_eq_true harity⟩
  cases args with
  | nil =>
      simp only [removeTableDest, hd, if_false]
      exact ⟨hself, fun _ _ _ => trivial, decide_eq_true harity⟩
  | cons lhs rest =>
      simp only [removeTableDest_cons hd, InsnData.args, InsnData.tableFits]
      refine ⟨fun v hv => ?_, fun v i hi => by simp [hi], by simp⟩
      have hperm := (@map_snd_partition_perm dest (table.zip rest)).trans
        (List.Perm.of_eq (List.map_snd_zip _ _ (by simpa using harity)))
      obtain ⟨hv, hdrop⟩ := mem_removeUsers.1 hv
      rcases List.mem_cons.1 (hself v hv) with rfl | hrest
      · exact List.mem_cons_self _ _
      rcases List.mem_append.1 (hperm.mem_iff.2 hrest) with hk | hdr
      exacts [List.mem_cons_of_mem _ hk, absurd rfl (hdrop hdr)]

/-- `remove_branch_dest` keeps the invariant on a graph whose `br_table`s fit: a collapsed
terminator is a jump, a user of nothing. -/
theorem soundGraph_removeBranchDest {dest : Block} (hinv : SoundGraph dfg)
    (h : dfg.removeBranchDest insn dest = some dfg') : SoundGraph dfg' := by
  rcases removeBranchDest_eq_some h with ⟨cond, t, e, hI, -, rfl⟩ | ⟨args, default, table, hI, hr⟩
  · refine soundGraph_of_set hinv hI rfl (fun v i hi => by simp [hi]) (fun v hv => ?_) rfl
    obtain ⟨hv, hne⟩ := mem_update_erase.1 hv
    exact absurd (List.mem_singleton.1 (hinv.mem_args hI hv)) fun hc => hne hc rfl
  · obtain ⟨hs, ho, hf⟩ := removeTableDest_sound dest default
      (by simpa [InsnData.tableFits] using hinv.fit insn _ hI) fun v hv => hinv.mem_args hI hv
    rcases hr with ⟨-, remain, -, rfl⟩ | ⟨-, rfl⟩
    · refine soundGraph_of_set hinv hI rfl (fun v i hi hv => ?_) (fun v hv => ?_) rfl
      · exact (ho v i hi).1 (mem_removeUsers.1 hv).1
      · obtain ⟨hv, hne⟩ := mem_removeUsers.1 hv
        exact absurd rfl (hne (hs v hv))
    · exact soundGraph_of_set hinv hI rfl (fun v i hi => (ho v i hi).1) hs hf

/-- `rewrite_branch_dest` keeps the invariant: it changes no operand. -/
theorem soundGraph_rewriteBranchDest {fromBlock toBlock : Block} (hinv : SoundGraph dfg)
    (h : dfg.rewriteBranchDest insn fromBlock toBlock = some dfg') : SoundGraph dfg' := by
  obtain ⟨data, hdata, rfl⟩ := rewriteBranchDest_eq_some.1 h
  refine soundGraph_of_set hinv hdata rfl (fun _ _ _ => id) (fun v hv => ?_)
    (by simpa using hinv.fit insn data hdata)
  rw [InsnData.args_rewriteBranchDest]
  exact hinv.mem_args hdata hv

end Preservation

/-! ### Runs -/

/-- The calls that install only fitting instructions: `make_insn` and `replace_insn` of fitting
data, and every other method. -/
def DfgOp.installsFit : DfgOp → Bool
  | .makeInsn insn | .replaceInsn _ insn => insn.tableFits
  | _ => true

variable {dfg dfg' : DataFlowGraph} {op : DfgOp}

/-- **Every method keeps sound user sets.** One call that installs only fitting instructions
keeps the user sets sound and the tables fitting. -/
theorem soundGraph_apply (hinv : SoundGraph dfg) (hop : op.installsFit)
    (h : dfg.apply op = some dfg') : SoundGraph dfg' := by
  cases op with
  | makeBlock | makeValue => cases h; exact soundGraph_congr hinv rfl fun _ _ => id
  | makeInsn data => cases h; exact soundGraph_makeInsn hinv hop
  | makeImmValue imm =>
      cases h
      exact soundGraph_congr hinv (insns_makeImmValue dfg imm) fun v i hi => by
        rwa [users_makeImmValue] at hi
  | makeGlobalValue gvStore gv =>
      obtain ⟨_, -, rfl⟩ := apply_makeGlobalValue h
      exact soundGraph_congr hinv rfl fun _ _ => id
  | replaceInsn => exact soundGraph_replaceInsn hinv hop h
  | changeToAlias => exact soundGraph_changeToAlias hinv h
  | attachResult =>
      obtain ⟨-, rfl⟩ := attachResult_eq_some.1 h
      exact soundGraph_congr hinv rfl fun _ _ => id
  | attachUser => exact soundGraph_attachUser hinv h
  | removeUser =>
      cases h
      exact soundGraph_congr hinv rfl fun _ _ hi => (mem_update_erase.1 hi).1
  | appendPhiArg => exact soundGraph_appendPhiArg hinv h
  | removePhiArg =>
      obtain ⟨r, hr, rfl⟩ := Option.map_eq_some'.1 h
      exact soundGraph_removePhiArg hinv hr
  | replaceInsnArg =>
      obtain ⟨r, hr, rfl⟩ := Option.map_eq_some'.1 h
      exact soundGraph_replaceInsnArg hinv hr
  | removeBranchDest => exact soundGraph_removeBranchDest hinv h
  | rewriteBranchDest => exact soundGraph_rewriteBranchDest hinv h

/-- One call that installs only fitting instructions. -/
def FitStep (dfg dfg' : DataFlowGraph) : Prop :=
  ∃ op, op.installsFit ∧ dfg.apply op = some dfg'

/-- The invariant holds along every fitting run. -/
theorem soundGraph_of_run (hinv : SoundGraph dfg) (h : Relation.ReflTransGen FitStep dfg dfg') :
    SoundGraph dfg' := by
  induction h with
  | refl => exact hinv
  | tail _ hstep ih =>
      obtain ⟨op, hop, h⟩ := hstep
      exact soundGraph_apply ih hop h

/-- On sound user sets `change_to_alias` does not panic: a recorded user has an operand, so it
lies in the arena. -/
theorem changeToAlias_isSome (hinv : UsersSound dfg) (value aliasValue : Value) :
    (dfg.changeToAlias value aliasValue).isSome := by
  have hvalid : ∀ insn ∈ dfg.users value, insn.index < dfg.insns.length := by
    intro insn hi
    by_contra hge
    have hv := hinv _ _ hi
    rw [operands_of_length_le (Nat.le_of_not_lt hge)] at hv
    exact List.not_mem_nil _ hv
  exact Option.isSome_iff_exists.2 ⟨_, changeToAlias_eq_some.2 ⟨hvalid, rfl⟩⟩

/-- **Recorded users are real users, along every run.** In every graph that calls of
`DataFlowGraph` methods reach from the empty graph, `remove_phi_arg`, `remove_branch_dest`,
`remove_user`, `replace_insn_arg` and `change_to_alias` on any arguments included, as long as the
`br_table`s that `make_insn` and `replace_insn` install have at most one case value per entry:
every recorded user of a value has the value among its operands, and `change_to_alias` does not
panic. -/
theorem usersSound_of_fitRun (h : Relation.ReflTransGen FitStep DataFlowGraph.new dfg) :
    UsersSound dfg ∧ ∀ value aliasValue, (dfg.changeToAlias value aliasValue).isSome :=
  have hinv := soundGraph_of_run soundGraph_new h
  ⟨hinv.sound, changeToAlias_isSome hinv.sound⟩

/-- The failing run of `removePhiArg_drops_live_user` is a fitting run: after the removal the
user sets are no longer consistent, but still sound. -/
theorem usersSound_removePhiArg_run :
    ∃ dfg, repeatedPhiArgGraph.apply (.removePhiArg ⟨0⟩ ⟨0⟩) = some dfg ∧
      Relation.ReflTransGen FitStep DataFlowGraph.new dfg ∧ UsersSound dfg ∧
      ∀ value aliasValue, (dfg.changeToAlias value aliasValue).isSome := by
  have hrm : repeatedPhiArgGraph.apply (.removePhiArg ⟨0⟩ ⟨0⟩) = some _ := rfl
  have hrun : Relation.ReflTransGen FitStep DataFlowGraph.new _ :=
    .head ⟨.makeValue (.arg .i8 0), rfl, rfl⟩ <| .head ⟨.makeValue (.arg .i8 1), rfl, rfl⟩ <|
      .head ⟨.makeBlock, rfl, rfl⟩ <| .head ⟨.makeBlock, rfl, rfl⟩ <|
      .head ⟨.makeInsn (.phi [⟨0⟩, ⟨0⟩] [⟨0⟩, ⟨1⟩] .i8), rfl, rfl⟩ <|
      .single ⟨.removePhiArg ⟨0⟩ ⟨0⟩, rfl, hrm⟩
  exact ⟨_, hrm, hrun, usersSound_of_fitRun hrun⟩

end Sonatina
