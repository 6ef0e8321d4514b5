import Sonatina.Ir.Types

/-!
# Phi Entries

The specification describes a phi as a type and a list of `(value, block)` entries that may grow
one entry at a time, and `append_phi_arg` and `remove_phi_arg` as edits of that list (`Phi`). The
code keeps the entries in two vectors, `values` and `blocks`, and edits both at one position:
`append_phi_arg` pushes onto both, `remove_phi_arg` finds the position of the block in `blocks`
and erases that position from both.

The two views agree while the vectors of a phi have the same length (`InsnData.phiPaired`). The
entries are then the two vectors zipped (`InsnData.toPhi`); appending pushes one entry, and
removing the entry from a block succeeds exactly when an entry flows from it, returns the value
of the first such entry and erases that entry (`InsnData.removePhiArg_refines`). On a phi with
more values than blocks, appending pairs the new block with a value that was there before.

No method of the graph checks the lengths, but none breaks them either: every call keeps every
phi paired, as long as the instructions the caller hands to `make_insn` and `replace_insn` are
(`phisPaired_apply`).

## Main results

* `InsnData.appendPhiArg_refines`, `InsnData.removePhiArg_refines`: on a paired phi, the entry
  edits of the code are those of the specification's entry list.
* `PhisPaired.of_set`, `PhisPaired.of_append`: the frames of pairing.
* `phisPaired_apply`, `phisPaired_of_run`: calls that install paired phis keep every phi paired.
* `DataFlowGraph.appendPhiArg_refines`, `DataFlowGraph.removePhiArg_refines`: on a graph whose
  phis are paired, the graph's entry edits refine the specification's.
* `DataFlowGraph.phiArg_eq_none`: both edits panic on an instruction that is no phi.
-/

namespace Sonatina

/-- Modelled from the spec: a phi as the specification describes it, its type and its
`(value, block)` entries. -/
structure Phi where
  ty : Ty
  entries : List (Value × Block)
  deriving DecidableEq, Repr

namespace Phi

/-- Modelled from the spec: push one entry (`append_phi_arg`). -/
def appendArg (phi : Phi) (value : Value) (block : Block) : Phi :=
  { phi with entries := phi.entries ++ [(value, block)] }

/-- Modelled from the spec: remove the entry flowing from `fromBlock`, the first one if there are
several, and return its value (`remove_phi_arg`); `none` when no entry flows from the block. -/
def removeArg (phi : Phi) (fromBlock : Block) : Option (Phi × Value) :=
  (phi.entries.find? fun e => e.2 == fromBlock).map fun e =>
    ({ phi with entries := phi.entries.eraseP fun e => e.2 == fromBlock }, e.1)

end Phi

/-- Finding a block in one vector and erasing its position from both is, on vectors of one
length, finding the first entry from the block in the zipped list and erasing it. -/
theorem List.zip_eraseIdx_findIdx? {values : List Value} {blocks : List Block}
    (hlen : values.length = blocks.length) (fromBlock : Block) :
    ((blocks.findIdx? (· == fromBlock)).bind fun pos => values[pos]?.map fun v =>
        ((values.eraseIdx pos).zip (blocks.eraseIdx pos), v)) =
      ((values.zip blocks).find? fun e => e.2 == fromBlock).map fun e =>
        ((values.zip blocks).eraseP fun e => e.2 == fromBlock, e.1) := by
  induction values generalizing blocks with
  | nil => simp
  | cons v vs ih =>
      obtain _ | ⟨b, bs⟩ := blocks
      · simp at hlen
      by_cases hb : b = fromBlock
      · simp [hb]
      · have ih := congrArg (Option.map fun r => ((v, b) :: r.1, r.2))
          (ih (Nat.succ.inj hlen))
        simpa [hb, Option.map_bind, Option.bind_map, Function.comp_def] using ih

namespace InsnData

/-- The specification's view of an instruction as a phi: its type and its two vectors zipped into
entries; `none` for any other instruction. -/
def toPhi : InsnData → Option Phi
  | .phi values blocks ty => some ⟨ty, values.zip blocks⟩
  | _ => none

variable {d : InsnData}

/-- **Appending refines.** On a paired phi, `append_phi_arg` pushes the entry; on any other
instruction it panics, and there is no phi to push onto. -/
theorem appendPhiArg_refines (hd : d.phiPaired) (value : Value) (block : Block) :
    (d.appendPhiArg value block).bind toPhi = d.toPhi.map (·.appendArg value block) := by
  cases d with
  | phi values blocks ty =>
      simp only [phiPaired, beq_iff_eq] at hd
      simp [appendPhiArg, toPhi, Phi.appendArg, List.zip_append hd]
  | _ => rfl

/-- **Removing refines.** On a paired phi, `remove_phi_arg` succeeds exactly when an entry flows
from the block, returns the value of the first such entry, and leaves the phi with that entry
erased; on any other instruction it panics, as does the removal from no phi. -/
theorem removePhiArg_refines (hd : d.phiPaired) (fromBlock : Block) :
    (d.removePhiArg fromBlock).bind (fun r => r.1.toPhi.map (·, r.2)) =
      d.toPhi.bind (·.removeArg fromBlock) := by
  cases d with
  | phi values blocks ty =>
      simp only [phiPaired, beq_iff_eq] at hd
      have h := congrArg (Option.map fun r => (Phi.mk ty r.1, r.2))
        (List.zip_eraseIdx_findIdx? hd fromBlock)
      simpa [removePhiArg, toPhi, Phi.removeArg, Option.bind_assoc, Option.map_eq_bind,
        Function.comp_def] using h
  | _ => rfl

/-- `append_phi_arg` and `remove_phi_arg` panic on an instruction that is no phi. -/
theorem phiArg_eq_none (h : d.toPhi = none) (value : Value) (block fromBlock : Block) :
    d.appendPhiArg value block = none ∧ d.removePhiArg fromBlock = none := by
  cases d <;> first | exact ⟨rfl, rfl⟩ | cases h

end InsnData

/-- Every phi of the graph has one block per value. -/
def PhisPaired (dfg : DataFlowGraph) : Prop :=
  ∀ insn d, dfg.insnData? insn = some d → d.phiPaired

namespace DataFlowGraph

/-- The specification's view of instruction `insn` of the graph as a phi. -/
def phi? (dfg : DataFlowGraph) (insn : Insn) : Option Phi :=
  (dfg.insnData? insn).bind InsnData.toPhi

variable {dfg dfg' : DataFlowGraph} {insn : Insn}

/-- **Appending refines, in the graph.** On a graph whose phis are paired, `append_phi_arg`
pushes the entry onto the phi `insn`. -/
theorem appendPhiArg_refines (h : PhisPaired dfg) (insn : Insn) (value : Value) (block : Block) :
    (dfg.appendPhiArg insn value block).bind (·.phi? insn) =
      (dfg.phi? insn).map (·.appendArg value block) := by
  cases hd : dfg.insnData? insn with
  | none => simp [appendPhiArg, phi?, hd]
  | some d =>
      have hset : ∀ d' users, ({ dfg with insns := dfg.insns.set insn.index d', users } :
          DataFlowGraph).insnData? insn = some d' := fun d' _ => by
        rw [insnData?_set hd rfl]; exact if_pos rfl
      simpa [appendPhiArg, phi?, hd, hset, Option.bind_assoc] using
        InsnData.appendPhiArg_refines (h insn d hd) value block

/-- **Removing refines, in the graph.** On a graph whose phis are paired, `remove_phi_arg`
succeeds exactly when an entry of the phi `insn` flows from the block, returns the value of the
first such entry, and leaves the phi with that entry erased. -/
theorem removePhiArg_refines (h : PhisPaired dfg) (insn : Insn) (fromBlock : Block) :
    (dfg.removePhiArg insn fromBlock).bind (fun r => (r.1.phi? insn).map (·, r.2)) =
      (dfg.phi? insn).bind (·.removeArg fromBlock) := by
  cases hd : dfg.insnData? insn with
  | none => simp [removePhiArg, phi?, hd]
  | some d =>
      have hset : ∀ d' users, ({ dfg with insns := dfg.insns.set insn.index d', users } :
          DataFlowGraph).insnData? insn = some d' := fun d' _ => by
        rw [insnData?_set hd rfl]; exact if_pos rfl
      simpa [removePhiArg, phi?, hd, hset, Option.bind_assoc, removeUser] using
        InsnData.removePhiArg_refines (h insn d hd) fromBlock

/-- **No phi, no entry edit.** On an instruction that is no phi, or is not in the arena,
`append_phi_arg` and `remove_phi_arg` panic. -/
theorem phiArg_eq_none (h : dfg.phi? insn = none) (value : Value) (block fromBlock : Block) :
    dfg.appendPhiArg insn value block = none ∧ dfg.removePhiArg insn fromBlock = none := by
  cases hd : dfg.insnData? insn with
  | none => simp [appendPhiArg, removePhiArg, hd]
  | some d =>
      obtain ⟨ha, hr⟩ := InsnData.phiArg_eq_none (by simpa [phi?, hd] using h) value block
        fromBlock
      simp [appendPhiArg, removePhiArg, hd, ha, hr]

end DataFlowGraph

open DataFlowGraph

/-- What a call must guarantee to keep phis paired: the data it installs is paired. -/
def DfgOp.installsPaired : DfgOp → Bool
  | .makeInsn data | .replaceInsn _ data => data.phiPaired
  | _ => true

/-- One call that installs paired data. -/
def PairedStep (dfg dfg' : DataFlowGraph) : Prop :=
  ∃ op, op.installsPaired ∧ dfg.apply op = some dfg'

section Preservation

variable {dfg dfg' : DataFlowGraph} {insn : Insn}

/-- The empty graph has no phi. -/
theorem phisPaired_new : PhisPaired DataFlowGraph.new := fun _ _ => nofun

/-- **The frame of pairing.** A change that writes paired data into one instruction, or none,
keeps phis paired. -/
theorem PhisPaired.of_set (h : PhisPaired dfg) {old data : InsnData}
    (hold : dfg.insnData? insn = some old) (hinsns : dfg'.insns = dfg.insns.set insn.index data)
    (hdata : data.phiPaired) : PhisPaired dfg' := fun i d hd => by
  rw [insnData?_set hold hinsns] at hd
  split_ifs at hd
  · exact Option.some.inj hd ▸ hdata
  · exact h i d hd

/-- Pushing paired data keeps phis paired. -/
theorem PhisPaired.of_append (h : PhisPaired dfg) {data : InsnData}
    (hinsns : dfg'.insns = dfg.insns ++ [data]) (hdata : data.phiPaired) : PhisPaired dfg' :=
  fun i d hd => by
    rw [insnData?_append hinsns] at hd
    split_ifs at hd
    · exact Option.some.inj hd ▸ hdata
    · exact h i d hd

/-- A change that leaves the instruction arena as it is keeps phis paired. -/
theorem PhisPaired.of_insns (h : PhisPaired dfg) (hinsns : dfg'.insns = dfg.insns) :
    PhisPaired dfg' := fun i d hd => h i d (by rwa [insnData?, hinsns] at hd)

/-- `change_to_alias` rewrites operands only, so it keeps phis paired. -/
theorem phisPaired_changeToAlias (h : PhisPaired dfg) {value aliasValue : Value}
    (happ : dfg.changeToAlias value aliasValue = some dfg') : PhisPaired dfg' := by
  obtain ⟨-, rfl⟩ := changeToAlias_eq_some.1 happ
  intro i d' hd'
  simp only [insnData?, List.getElem?_mapIdx] at hd'
  obtain ⟨d, hd, rfl⟩ := Option.map_eq_some'.1 hd'
  split_ifs
  · simpa using h i d hd
  · exact h i d hd

/-- **One call keeps phis paired.** Every method call that installs paired data keeps every phi
of the graph paired. -/
theorem phisPaired_apply {op : DfgOp} (h : PhisPaired dfg) (hop : op.installsPaired)
    (happ : dfg.apply op = some dfg') : PhisPaired dfg' := by
  cases op with
  | makeBlock | makeValue | removeUser => cases happ; exact h.of_insns rfl
  | makeImmValue imm => cases happ; exact h.of_insns (insns_makeImmValue _ _)
  | makeGlobalValue =>
      obtain ⟨_, -, rfl⟩ := apply_makeGlobalValue happ
      exact h.of_insns rfl
  | attachResult =>
      obtain ⟨-, rfl⟩ := attachResult_eq_some.1 happ
      exact h.of_insns rfl
  | attachUser =>
      obtain ⟨_, -, rfl⟩ := attachUser_eq_some.1 happ
      exact h.of_insns rfl
  | makeInsn data => cases happ; exact h.of_append rfl hop
  | replaceInsn =>
      obtain ⟨old, hold, rfl⟩ := replaceInsn_eq_some.1 happ
      exact h.of_set hold rfl hop
  | changeToAlias => exact phisPaired_changeToAlias h happ
  | appendPhiArg =>
      obtain ⟨d, d', hd, happ', rfl⟩ := appendPhiArg_eq_some.1 happ
      exact h.of_set hd rfl (InsnData.phiPaired_appendPhiArg (h _ d hd) happ')
  | removePhiArg =>
      obtain ⟨d, d', _, hd, hrem, rfl⟩ := apply_removePhiArg happ
      exact h.of_set hd rfl (InsnData.phiPaired_removePhiArg (h _ d hd) hrem)
  | replaceInsnArg =>
      obtain ⟨r, hr, rfl⟩ := apply_replaceInsnArg happ
      obtain ⟨d, hd, -, hr'⟩ := replaceInsnArg_eq_some.1 hr
      exact h.of_set hd (by rw [hr']) (by simpa using h _ d hd)
  | removeBranchDest =>
      obtain ⟨old, new, hold, hinsns, -, -, -, hphi⟩ := removeBranchDest_set happ
      exact h.of_set hold hinsns (InsnData.phiPaired_of_isPhi_eq_false hphi)
  | rewriteBranchDest =>
      obtain ⟨d, hd, rfl⟩ := rewriteBranchDest_eq_some.1 happ
      exact h.of_set hd rfl (by simpa using h _ d hd)

/-- **Pairing along a run.** Every run of method calls that install paired data keeps every phi
paired. -/
theorem phisPaired_of_run (h : PhisPaired dfg) (hrun : Relation.ReflTransGen PairedStep dfg dfg') :
    PhisPaired dfg' := by
  induction hrun with
  | refl => exact h
  | tail _ hstep ih =>
      obtain ⟨op, hop, happ⟩ := hstep
      exact phisPaired_apply ih hop happ

end Preservation

/- On a phi with two values and one block, appending pairs the new block with the second value:
the entries the code stores are no longer the old ones followed by the new one. -/
example : ((InsnData.phi [⟨0⟩, ⟨1⟩] [⟨0⟩] .i8).appendPhiArg ⟨2⟩ ⟨1⟩).bind InsnData.toPhi ≠
    (InsnData.phi [⟨0⟩, ⟨1⟩] [⟨0⟩] .i8).toPhi.map (·.appendArg ⟨2⟩ ⟨1⟩) := by
  decide

end Sonatina
