import Mathlib.Data.List.Nodup
import Sonatina.Ir.Users

/-!
# Removing a Branch Destination

`DataFlowGraph::remove_branch_dest` edits a terminator so that a block is no longer one of its
targets. On a `br` with two distinct destinations it does exactly that, and keeps the user sets
right (`removeBranchDest_branch`). On a `br_table` its two arms miss:

* when the default is the removed block, the `else if` skips the table, so case entries to the
  same block survive, and the instruction may even collapse to a jump to the removed block;
* the table arm drops the user edge of each removed case value without asking whether the
  value is still the condition or another kept case value, where `replace_insn_arg` does ask.

`removeBranchDest_brTable_default` states the first for every `br_table`, and
`removeBranchDest_brTable_misses` evaluates both on concrete graphs. When the operands of the
`br_table` are pairwise distinct and there is one case value per entry, the table arm keeps the
user sets right (`removeTableDest_users`), which with the preservation lemmas of
`Sonatina.Ir.Users` gives user-set consistency along every run whose removals avoid the two
misses (`usersConsistent_of_keepsUsers`).
-/

namespace Sonatina

open DataFlowGraph

/-! ### The table arm -/

section TableArm

variable {users : Value → Finset Insn} {insn : Insn} {dest : Block} {default : Option Block}
  {table : List Block}

/-- When the default is the removed block, the table arm clears it and does nothing else. -/
theorem removeTableDest_of_default (hd : some dest = default) (args : List Value) :
    removeTableDest users insn dest args default table = (.brTable args none table, users) := by
  simp [removeTableDest, hd]

/-- Otherwise the table arm keeps the entries to other blocks and drops the user edges of the
others. -/
theorem removeTableDest_cons (hd : some dest ≠ default) (lhs : Value) (rest : List Value) :
    removeTableDest users insn dest (lhs :: rest) default table =
      (.brTable (lhs :: ((table.zip rest).filter fun p => p.1 != dest).map Prod.snd) default
          (((table.zip rest).filter fun p => p.1 != dest).map Prod.fst),
        removeUsers users (((table.zip rest).filter fun p => p.1 == dest).map Prod.snd) insn) := by
  simp [removeTableDest, hd, List.partition_eq_filter_filter, List.unzip_fst, List.unzip_snd,
    Function.comp_def, bne]

/-- The kept and the dropped case values together are the case values, up to order. -/
theorem map_snd_partition_perm (l : List (Block × Value)) :
    (((l.filter fun p => p.1 != dest).map Prod.snd) ++
      (l.filter fun p => p.1 == dest).map Prod.snd).Perm (l.map Prod.snd) := by
  have h := List.filter_append_perm (fun p : Block × Value => p.1 != dest) l
  simp only [bne, Bool.not_not] at h
  exact List.map_append _ _ _ ▸ h.map _

/-- On a `br_table` with pairwise distinct operands and at most one case value per table entry,
the table arm leaves the instruction a user of exactly its remaining operands, and leaves the
edges of every other instruction alone. -/
theorem removeTableDest_users {args : List Value} (hnodup : args.Nodup)
    (harity : args.length ≤ table.length + 1) (hself : ∀ v, insn ∈ users v ↔ v ∈ args) :
    let r := removeTableDest users insn dest args default table
    (∀ v, insn ∈ r.2 v ↔ v ∈ r.1.args) ∧ (∀ v i, i ≠ insn → (i ∈ r.2 v ↔ i ∈ users v)) := by
  by_cases hd : some dest = default
  · simp only [removeTableDest_of_default hd, InsnData.args]
    exact ⟨hself, fun _ _ _ => trivial⟩
  cases args with
  | nil => simp [removeTableDest, hd, InsnData.args, hself]
  | cons lhs rest =>
      simp only [removeTableDest_cons hd, InsnData.args]
      refine ⟨fun v => ?_, fun v i hi => by simp [hi]⟩
      have hperm := (@map_snd_partition_perm dest (table.zip rest)).trans
        (List.Perm.of_eq (List.map_snd_zip _ _ (by simpa using harity)))
      rw [List.nodup_cons] at hnodup
      have hdisj := (List.nodup_append.1 (hperm.nodup_iff.2 hnodup.2)).2.2
      simp only [mem_removeUsers, hself, ne_eq, not_true_eq_false, imp_false, List.mem_cons]
      constructor
      · rintro ⟨rfl | hv, hdrop⟩
        · exact .inl rfl
        · rcases List.mem_append.1 (hperm.mem_iff.2 hv) with hk | hdr
          exacts [.inr hk, absurd hdr hdrop]
      · rintro (rfl | hk)
        · exact ⟨.inl rfl, fun hdr =>
            hnodup.1 (hperm.mem_iff.1 (List.mem_append_right _ hdr))⟩
        · exact ⟨.inr (hperm.mem_iff.1 (List.mem_append_left _ hk)), fun hdr => hdisj hk hdr⟩

end TableArm

/-! ### User sets along runs -/

section Preservation

variable {dfg dfg' : DataFlowGraph} {insn : Insn} {dest : Block}

/-- `remove_branch_dest` keeps user-set consistency on an instruction with pairwise distinct
operands and, for a `br_table`, at most one case value per table entry. -/
theorem usersConsistent_removeBranchDest (hinv : UsersConsistent dfg)
    (hnodup : (dfg.operands insn).Nodup)
    (harity : ∀ args default table, dfg.insnData? insn = some (.brTable args default table) →
      args.length ≤ table.length + 1)
    (h : dfg.removeBranchDest insn dest = some dfg') : UsersConsistent dfg' := by
  rcases removeBranchDest_eq_some h with ⟨cond, t, e, hI, -, rfl⟩ | ⟨args, default, table, hI, hr⟩
  · refine usersConsistent_of_set hinv hI rfl (fun v i hi => by simp [hi]) fun v => ?_
    have hself := hinv v insn
    rw [operands_of_insnData? hI] at hself
    simp [InsnData.args, hself]
  · have hself : ∀ v, insn ∈ dfg.users v ↔ v ∈ args := fun v => by
      rw [hinv, operands_of_insnData? hI]; rfl
    rw [operands_of_insnData? hI] at hnodup
    obtain ⟨hs, ho⟩ := @removeTableDest_users dfg.users insn dest default table args hnodup
      (harity _ _ _ hI) hself
    rcases hr with ⟨-, remain, -, rfl⟩ | ⟨-, rfl⟩
    · refine usersConsistent_of_set hinv hI rfl (fun v i hi => ?_) fun v => ?_
      · simp [hi, ho v i hi]
      · simp [hs, InsnData.args]
    · exact usersConsistent_of_set hinv hI rfl ho hs

end Preservation

open DataFlowGraph in
/-- The calls that keep user-set consistency: every method but `remove_user`, and the two
removals on an instruction with pairwise distinct operands and, for a `br_table`, at most one
case value per table entry. -/
def KeepsUsers (dfg : DataFlowGraph) : DfgOp → Prop
  | .removeUser .. => False
  | .removePhiArg insn _ => (dfg.operands insn).Nodup
  | .removeBranchDest insn _ =>
      (dfg.operands insn).Nodup ∧ ∀ args default table,
        dfg.insnData? insn = some (.brTable args default table) → args.length ≤ table.length + 1
  | _ => True

/-- One call that keeps users keeps user-set consistency. -/
theorem usersConsistent_apply {dfg dfg' : DataFlowGraph} {op : DfgOp} (hinv : UsersConsistent dfg)
    (hkeep : KeepsUsers dfg op) (h : dfg.apply op = some dfg') : UsersConsistent dfg' := by
  cases op with
  | makeBlock | makeValue | removeUser => first | cases h; exact hinv | exact hkeep.elim
  | makeInsn data => cases h; exact usersConsistent_makeInsn hinv data
  | makeImmValue imm =>
      cases h
      cases hi : dfg.immediates imm
      · rw [makeImmValue_of_not_interned hi]; exact hinv
      · rw [makeImmValue_of_interned hi]; exact hinv
  | makeGlobalValue gvStore gv => obtain ⟨_, -, rfl⟩ := apply_makeGlobalValue h; exact hinv
  | replaceInsn => exact usersConsistent_replaceInsn hinv h
  | changeToAlias => exact usersConsistent_changeToAlias hinv h
  | attachResult => obtain ⟨-, rfl⟩ := attachResult_eq_some.1 h; exact hinv
  | attachUser => exact usersConsistent_attachUser hinv h
  | appendPhiArg => exact usersConsistent_appendPhiArg hinv h
  | removePhiArg =>
      obtain ⟨r, hr, rfl⟩ := Option.map_eq_some'.1 h
      exact usersConsistent_removePhiArg hinv hkeep hr
  | replaceInsnArg =>
      obtain ⟨r, hr, rfl⟩ := Option.map_eq_some'.1 h
      exact usersConsistent_replaceInsnArg hinv hr
  | removeBranchDest => exact usersConsistent_removeBranchDest hinv hkeep.1 hkeep.2 h
  | rewriteBranchDest => exact usersConsistent_rewriteBranchDest hinv h

/-- One call that keeps users. -/
def KeepsUsersStep (dfg dfg' : DataFlowGraph) : Prop :=
  ∃ op, KeepsUsers dfg op ∧ dfg.apply op = some dfg'

/-- Calls that keep users keep user-set consistency along a run. -/
theorem usersConsistent_of_run {dfg dfg' : DataFlowGraph} (hinv : UsersConsistent dfg)
    (h : Relation.ReflTransGen KeepsUsersStep dfg dfg') : UsersConsistent dfg' := by
  induction h with
  | refl => exact hinv
  | tail _ hstep ih =>
      obtain ⟨op, hkeep, hop⟩ := hstep
      exact usersConsistent_apply ih hkeep hop

/-- **User-set consistency along runs.** In every graph reached from the empty graph by calls
that keep users, the user set of each value is exactly the set of instructions having it among
their operands. -/
theorem usersConsistent_of_keepsUsers {dfg : DataFlowGraph}
    (h : Relation.ReflTransGen KeepsUsersStep DataFlowGraph.new dfg) : UsersConsistent dfg :=
  usersConsistent_of_run usersConsistent_new h

/-- `repeatedPhiArgGraph` is reached by calls that keep users, so its user sets are consistent. -/
theorem usersConsistent_repeatedPhiArgGraph_run :
    Relation.ReflTransGen KeepsUsersStep DataFlowGraph.new repeatedPhiArgGraph ∧
      UsersConsistent repeatedPhiArgGraph :=
  have hrun : Relation.ReflTransGen KeepsUsersStep DataFlowGraph.new repeatedPhiArgGraph :=
    .head ⟨.makeValue (.arg .i8 0), trivial, rfl⟩ <|
      .head ⟨.makeValue (.arg .i8 1), trivial, rfl⟩ <|
      .head ⟨.makeBlock, trivial, rfl⟩ <| .head ⟨.makeBlock, trivial, rfl⟩ <|
      .head ⟨.makeInsn (.phi [⟨0⟩, ⟨0⟩] [⟨0⟩, ⟨1⟩] .i8), trivial, rfl⟩ .refl
  ⟨hrun, usersConsistent_of_keepsUsers hrun⟩

/-! ### The contract of `remove_branch_dest` -/

/-- The base graph of the runs below: two argument values `v0`, `v1` and three blocks. -/
def twoValuesThreeBlocks : DataFlowGraph :=
  ((DataFlowGraph.new.makeValue (.arg .i8 0)).1.makeValue (.arg .i8 1)).1.makeBlock.1
    |>.makeBlock.1.makeBlock.1

section Contract

variable {dfg : DataFlowGraph} {insn : Insn} {dest : Block}

/-- **`remove_branch_dest` on a `br`.** For a `br` with two distinct destinations and either of
them, the call succeeds and turns the instruction into a jump to the other destination; the
instruction is then a user of no value, provided it was a user of exactly its operands. -/
theorem removeBranchDest_branch {cond : Value} {thenDest elseDest : Block}
    (hI : dfg.insnData? insn = some (.branch cond thenDest elseDest)) (hne : thenDest ≠ elseDest)
    (hdest : dest = thenDest ∨ dest = elseDest) :
    ∃ dfg' remain, dfg.removeBranchDest insn dest = some dfg' ∧
      dfg'.insnData? insn = some (.jump remain) ∧ remain ≠ dest ∧
      (remain = thenDest ∨ remain = elseDest) ∧
      ((∀ v, insn ∈ dfg.users v ↔ v ∈ dfg.operands insn) → ∀ v, insn ∉ dfg'.users v) := by
  have hsome : (dfg.removeBranchDest insn dest).isSome := by
    rcases hdest with rfl | rfl <;> simp [removeBranchDest, hI, hne.symm]
    split_ifs <;> rfl
  obtain ⟨dfg', h⟩ := Option.isSome_iff_exists.1 hsome
  rcases removeBranchDest_eq_some h with ⟨c, t, e, hI', -, rfl⟩ | ⟨_, _, _, hI', -⟩
  · rw [hI] at hI'
    obtain ⟨rfl, rfl, rfl⟩ : cond = c ∧ thenDest = t ∧ elseDest = e := by
      simpa using hI'
    refine ⟨_, if thenDest = dest then elseDest else thenDest, h,
      by rw [insnData?_set hI rfl, if_pos rfl], ?_, ?_, fun hself v hv => ?_⟩
    · rcases hdest with rfl | rfl <;> simp [hne, hne.symm]
    · split_ifs <;> simp
    · simp only [mem_update_erase, ne_eq, not_true_eq_false, imp_false] at hv
      rw [hself, operands_of_insnData? hI] at hv
      simp [InsnData.args] at hv
  · simp [hI] at hI'

/-- **`remove_branch_dest` on a `br_table` whose default is not the removed block.** The call
succeeds; the entries kept are those whose block is not `dest`, in their order, after the
unchanged condition and default; the instruction becomes a jump exactly when one destination
is left, to that destination; `dest` is no longer a destination. If the operands are pairwise
distinct with at most one case value per entry, and the instruction was a user of exactly its
operands, it still is. -/
theorem removeBranchDest_brTable {cond : Value} {vals : List Value} {default : Option Block}
    {table : List Block} (hI : dfg.insnData? insn = some (.brTable (cond :: vals) default table))
    (hdef : default ≠ some dest) :
    let kept := (table.zip vals).filter fun p => p.1 != dest
    ∃ dfg' data, dfg.removeBranchDest insn dest = some dfg' ∧ dfg'.insnData? insn = some data ∧
      data = (match default.toList ++ kept.map Prod.fst with
        | [remain] => .jump remain
        | _ => .brTable (cond :: kept.map Prod.snd) default (kept.map Prod.fst)) ∧
      dest ∉ data.analyzeBranch.iterDests ∧
      ((cond :: vals).Nodup → vals.length ≤ table.length →
        (∀ v, insn ∈ dfg.users v ↔ v ∈ cond :: vals) →
          ∀ v, insn ∈ dfg'.users v ↔ v ∈ data.args) := by
  intro kept
  have hd : some dest ≠ default := fun h => hdef h.symm
  have hrt : removeTableDest dfg.users insn dest (cond :: vals) default table =
      (.brTable (cond :: kept.map Prod.snd) default (kept.map Prod.fst),
        removeUsers dfg.users (((table.zip vals).filter fun p => p.1 == dest).map Prod.snd) insn) :=
    removeTableDest_cons hd cond vals
  have hnotin : dest ∉ default.toList ++ kept.map Prod.fst := by simp [kept, hdef]
  have husers := fun (hnodup : (cond :: vals).Nodup) (hlen : vals.length ≤ table.length)
      (hself : ∀ v, insn ∈ dfg.users v ↔ v ∈ cond :: vals) =>
    hrt ▸ @removeTableDest_users dfg.users insn dest default table (cond :: vals) hnodup
      (by simpa using hlen) hself
  simp only [removeBranchDest, hI, bind, Option.some_bind, hrt, BranchInfo.destsNum_eq_length]
  rw [show (InsnData.brTable (cond :: kept.map Prod.snd) default
    (kept.map Prod.fst)).analyzeBranch.iterDests = default.toList ++ kept.map Prod.fst from rfl]
  rcases hL : default.toList ++ kept.map Prod.fst with _ | ⟨r, _ | ⟨r', l⟩⟩
  · exact ⟨_, _, rfl, by rw [insnData?_set hI rfl, if_pos rfl], rfl, hnotin,
      fun hn hl hs => (husers hn hl hs).1⟩
  · refine ⟨_, _, rfl, by rw [insnData?_set hI rfl, if_pos rfl], rfl, ?_, fun hn hl hs v => ?_⟩
    · rw [hL] at hnotin
      exact hnotin
    · simp only [mem_removeUsers, (husers hn hl hs).1, ne_eq, not_true_eq_false, imp_false,
        and_not_self, InsnData.args, List.not_mem_nil]
  · exact ⟨_, _, rfl, by rw [insnData?_set hI rfl, if_pos rfl], rfl, hnotin,
      fun hn hl hs => (husers hn hl hs).1⟩

/-- Removing the only entry of a `br_table` on `v0` with entry `(v1, block1)` and default
`block0` leaves an instruction without `block1` among its destinations. -/
theorem removeBranchDest_brTable_entry :
    ∃ dfg' data, (twoValuesThreeBlocks.makeInsn
        (.brTable [⟨0⟩, ⟨1⟩] (some ⟨0⟩) [⟨1⟩])).1.removeBranchDest ⟨0⟩ ⟨1⟩ = some dfg' ∧
      dfg'.insnData? ⟨0⟩ = some data ∧ ⟨1⟩ ∉ data.analyzeBranch.iterDests := by
  obtain ⟨dfg', data, h, hd, -, hdest, -⟩ := removeBranchDest_brTable
    (show (twoValuesThreeBlocks.makeInsn (.brTable [⟨0⟩, ⟨1⟩] (some ⟨0⟩) [⟨1⟩])).1.insnData? ⟨0⟩ =
      some (.brTable [⟨0⟩, ⟨1⟩] (some ⟨0⟩) [⟨1⟩]) from rfl)
    (by decide : (some ⟨0⟩ : Option Block) ≠ some ⟨1⟩)
  exact ⟨dfg', data, h, hd, hdest⟩

/-- **`remove_branch_dest` on a `br_table` whose default is the removed block.** The `else if`
skips the table: the default is cleared, every case entry is kept, and the instruction becomes a
jump exactly when one entry is left, to that entry. So the removed block stays a destination
exactly when the table has an entry to it. -/
theorem removeBranchDest_brTable_default {args : List Value} {table : List Block}
    (hI : dfg.insnData? insn = some (.brTable args (some dest) table)) :
    ∃ dfg' data, dfg.removeBranchDest insn dest = some dfg' ∧ dfg'.insnData? insn = some data ∧
      data = (match table with
        | [remain] => .jump remain
        | _ => .brTable args none table) ∧
      (dest ∈ data.analyzeBranch.iterDests ↔ dest ∈ table) := by
  simp only [removeBranchDest, hI, bind, Option.some_bind, removeTableDest_of_default rfl,
    BranchInfo.destsNum_eq_length]
  rcases table with _ | ⟨b, _ | ⟨b', l⟩⟩ <;>
    exact ⟨_, _, rfl, by rw [insnData?_set hI rfl, if_pos rfl], rfl,
      by simp [InsnData.analyzeBranch, BranchInfo.iterDests]⟩

end Contract

/-! ### The failing runs -/

/-- **The two misses of the table arm of `remove_branch_dest`.** On `twoValuesThreeBlocks`: a
`br_table` on `v0` with the single entry `(v1, block1)` and default `block1` becomes, when
`block1` is removed, a jump to `block1`; and a `br_table` on `v0` with entries `(v0, block1)` and
`(v1, block2)` and default `block0` keeps `v0` as its condition when `block1` is removed, but is
no longer among the users of `v0`. -/
theorem removeBranchDest_brTable_misses :
    ((twoValuesThreeBlocks.makeInsn (.brTable [⟨0⟩, ⟨1⟩] (some ⟨1⟩) [⟨1⟩])).1.removeBranchDest
        ⟨0⟩ ⟨1⟩).map (·.insnData? ⟨0⟩) = some (some (.jump ⟨1⟩)) ∧
      ((twoValuesThreeBlocks.makeInsn
          (.brTable [⟨0⟩, ⟨0⟩, ⟨1⟩] (some ⟨0⟩) [⟨1⟩, ⟨2⟩])).1.removeBranchDest
        ⟨0⟩ ⟨1⟩).map (fun d => (d.operands ⟨0⟩, d.users ⟨0⟩)) = some ([⟨0⟩, ⟨1⟩], ∅) := by
  decide

end Sonatina
