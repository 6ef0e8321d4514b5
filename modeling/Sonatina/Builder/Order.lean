import Mathlib.Data.List.Sort
import Sonatina.Builder.FuncBuilder

/-!
# Blocks Hold Their Instructions in Emission Order

The cursor of the function builder moves only to the bottom of a block (`switch_to_block`) and to
the instruction just inserted (`insert_insn`). So the instruction the cursor is at is always the
last of its block (`InOrder.cursor_last`), and every insertion, after that instruction or at the
bottom of a block, appends to the end of the block (`insertInsn_appends`). The graph hands out
instruction handles in the order of emission, so the handles along every block increase
(`InOrder.sorted`): the instruction list of a block is the arena, in emission order, filtered to
the instructions the layout puts into that block (`Reachable.insns_eq_filter`).

This is the ordering guarantee of the specification, that the instructions observed in a
block's layout appear in the order they were emitted, for the calls modelled.

Blocks are simpler: `append_block` makes a block and appends it to the layout in one call, and
no other call makes or places one, so the layout lists every block made, in creation order
(`Reachable.blocks_eq_range`).

## Main results

* `insertInsn_appends`: an insertion at a cursor that is at the last instruction of its block,
  or at a block, appends to that block.
* `Reachable.layoutSound_inOrder`: every reachable builder keeps the order invariant.
* `Reachable.insns_eq_filter`: each block lists exactly its instructions, in emission order.
* `Reachable.blocks_eq_range`: the layout lists the blocks made, in creation order.
-/

namespace Sonatina

namespace FunctionBuilder

/-- **The order invariant.** The handles along each block increase, and the instruction the
cursor is at is the last of its block. -/
structure InOrder (fb : FunctionBuilder) : Prop where
  sorted : ∀ block, ((fb.func.layout.insns block).map Insn.index).Sorted (· < ·)
  cursor_last : ∀ insn, fb.loc = .at insn → ∃ block, fb.func.layout.insnBlock insn = some block ∧
    (fb.func.layout.insns block).getLast? = some insn

/-- A new builder has an empty layout and its cursor nowhere. -/
theorem new_inOrder (sig : Signature) : (new sig).InOrder :=
  ⟨fun _ => List.sorted_nil, fun _ => nofun⟩

/-- **Insertions append.** At a cursor that is at the last instruction of its block, or at a
block, inserting an instruction appends it to the end of the block the cursor reports. -/
theorem insertInsn_appends {layout layout' : Layout} {loc : CursorLocation} {insn : Insn}
    (hwf : layout.WellFormed)
    (hlast : ∀ after, loc = .at after → ∃ block, layout.insnBlock after = some block ∧
      (layout.insns block).getLast? = some after)
    (h : loc.insertInsn layout insn = some layout') :
    ∃ block, layout'.insns = Function.update layout.insns block (layout.insns block ++ [insn]) ∧
      layout'.insnBlock = Function.update layout.insnBlock insn (some block) := by
  cases loc with
  | «at» after =>
      obtain ⟨b, hb, -, rfl⟩ := Layout.insertInsnAfter_eq_some h
      obtain ⟨b', hb', hlastb⟩ := hlast after rfl
      obtain rfl : b = b' := Option.some.inj (hb.symm.trans hb')
      obtain ⟨l, hl⟩ := List.getLast?_eq_some_iff.1 hlastb
      have hnot : after ∉ l := fun hmem =>
        (List.nodup_append.1 (hl ▸ hwf.insns_nodup b)).2.2 hmem (List.mem_singleton_self _)
      refine ⟨_, ?_, rfl⟩
      simp only [hl, Layout.insertAfter_append_last hnot, List.append_assoc, List.singleton_append]
  | blockTop b | blockBottom b =>
      obtain ⟨-, -, rfl⟩ := Layout.appendInsn_eq_some h
      exact ⟨b, rfl, rfl⟩
  | noWhere => cases h

variable {fb fb' : FunctionBuilder} {data : InsnData} {r : Option Value}

/-- `insert_insn` keeps the order invariant: the new instruction has the largest handle, goes to
the end of its block, and the cursor moves to it. -/
theorem inOrder_insertInsn (h : fb.insertInsn data = some (fb', r)) (hsound : fb.func.LayoutSound)
    (hord : fb.InOrder) : fb'.InOrder := by
  obtain ⟨-, hloc, -, -, layout, hl, rfl⟩ := insertInsn_frame h
  obtain ⟨block, hins, hblock⟩ := insertInsn_appends hsound.wellFormed hord.cursor_last hl
  refine ⟨fun b => ?_, fun insn hi => ?_⟩
  · rw [hins, Function.update_apply]
    split_ifs with hb
    · subst hb
      rw [List.map_append, List.Sorted, List.pairwise_append]
      refine ⟨hord.sorted b, List.pairwise_singleton _ _, fun a ha c hc => ?_⟩
      obtain ⟨x, hx, rfl⟩ := List.mem_map.1 ha
      rw [List.mem_singleton.1 hc]
      exact hsound.insn_lt x b ((hsound.wellFormed.mem_insns x b).1 hx)
    · exact hord.sorted b
  · rw [hloc] at hi
    cases hi
    exact ⟨block, by rw [hblock, Function.update_same],
      by rw [hins, Function.update_same, List.getLast?_concat]⟩

/-- Every call keeps the order invariant: the calls that insert nothing leave the instruction
lists alone and move the cursor, if at all, to the bottom of a block. -/
theorem inOrder_call (hsound : fb.func.LayoutSound) (hord : fb.InOrder) {c : BuilderCall}
    (h : fb.call c = some (fb', r)) : fb'.InOrder := by
  rcases call_cases h with ⟨-, ⟨layout, hl, rfl⟩ | ⟨block, rfl⟩ | ⟨imm, rfl⟩ |
    ⟨insn, value, block, dfg, hd, rfl⟩⟩ | ⟨data, ssa, r', hi, -, -⟩
  · obtain ⟨-, rfl⟩ := Layout.appendBlock_eq_some hl
    exact ⟨hord.1, hord.2⟩
  · exact ⟨hord.sorted, fun _ => nofun⟩
  · exact ⟨hord.1, hord.2⟩
  · exact ⟨hord.1, hord.2⟩
  · exact inOrder_insertInsn hi hsound ⟨hord.1, hord.2⟩

/-- Every reachable builder keeps its layout sound and the order invariant. -/
theorem Reachable.layoutSound_inOrder (h : fb.Reachable) : fb.func.LayoutSound ∧ fb.InOrder := by
  obtain ⟨sig, hrun⟩ := h
  induction hrun with
  | refl => exact ⟨Function.new_layoutSound sig, new_inOrder sig⟩
  | tail _ hstep ih =>
      obtain ⟨c, r, hc⟩ := hstep
      exact ⟨layoutSound_call ih.1 hc, inOrder_call ih.1 ih.2 hc⟩

/-- **Blocks hold their instructions in emission order.** In every builder reachable from a new
one, the instruction list of each block is the instruction arena, in the order the instructions
were emitted, filtered to those the layout puts into that block. -/
theorem Reachable.insns_eq_filter (h : fb.Reachable) (block : Block) :
    fb.func.layout.insns block = ((List.range fb.func.dfg.insns.length).map Insn.mk).filter
      fun insn => fb.func.layout.insnBlock insn = some block := by
  obtain ⟨hsound, hord⟩ := Reachable.layoutSound_inOrder h
  have hinj : Function.Injective Insn.index := fun _ _ => Insn.ext
  refine List.map_injective_iff.2 hinj (List.eq_of_perm_of_sorted ?_ (hord.sorted block) ?_)
  · refine List.Perm.map _ ((List.perm_ext_iff_of_nodup (hsound.wellFormed.insns_nodup block)
      (((List.nodup_range _).map fun _ _ => Insn.mk.inj).filter _)).2 fun insn => ?_)
    rw [hsound.wellFormed.mem_insns, List.mem_filter, List.mem_map, decide_eq_true_iff]
    refine ⟨fun hb => ⟨⟨insn.index, List.mem_range.2 (hsound.insn_lt insn block hb), rfl⟩, hb⟩,
      fun hb => hb.2⟩
  · have hsub := (List.filter_sublist (p := fun insn => fb.func.layout.insnBlock insn = some block)
      ((List.range fb.func.dfg.insns.length).map Insn.mk)).map Insn.index
    exact (List.sorted_lt_range _).sublist (by simpa [Function.comp_def] using hsub)

/-- The calls of a run that leaves and re-enters a block: `not` into block `1`, `neg` into block
`0`, then a return at the bottom of block `1` again. -/
def reenterCalls : List BuilderCall :=
  [.appendBlock, .appendBlock, .makeImmValue (.i8 1), .switchToBlock ⟨1⟩, .unary .not ⟨0⟩,
    .switchToBlock ⟨0⟩, .unary .neg ⟨0⟩, .switchToBlock ⟨1⟩, .ret none]

/-- In the run of `reenterCalls`, block `1` holds the first and the third instruction, in that
order. -/
theorem insns_eq_filter_reenter :
    ∃ fb, (new ⟨"f", [], none⟩).runCalls reenterCalls = some fb ∧
      fb.func.layout.insns ⟨1⟩ = ((List.range fb.func.dfg.insns.length).map Insn.mk).filter
        fun insn => fb.func.layout.insnBlock insn = some ⟨1⟩ :=
  have hrun : (new ⟨"f", [], none⟩).runCalls reenterCalls = some _ := rfl
  ⟨_, hrun, Reachable.insns_eq_filter (Reachable.of_runCalls hrun) ⟨1⟩⟩

/-- Every call keeps the layout's block list the list of blocks made: `append_block` makes the
next block and appends it, the other calls make and place none. -/
theorem blocks_call (hinv : fb.func.layout.blocks = (List.range fb.func.dfg.blocks).map Block.mk)
    {c : BuilderCall} (h : fb.call c = some (fb', r)) :
    fb'.func.layout.blocks = (List.range fb'.func.dfg.blocks).map Block.mk := by
  rcases call_cases h with ⟨-, ⟨layout, hl, rfl⟩ | ⟨block, rfl⟩ | ⟨imm, rfl⟩ |
    ⟨insn, value, block, dfg, hd, rfl⟩⟩ | ⟨data, ssa, r', hi, -, -⟩
  · obtain ⟨-, rfl⟩ := Layout.appendBlock_eq_some hl
    simp [hinv, DataFlowGraph.makeBlock, List.range_succ]
  · exact hinv
  · simpa only [makeImmValue, DataFlowGraph.blocks_makeImmValue] using hinv
  · obtain ⟨_, _, -, -, rfl⟩ := DataFlowGraph.appendPhiArg_eq_some.1 hd
    exact hinv
  · obtain ⟨-, -, -, hblocks, layout, hl, hlay⟩ := insertInsn_frame hi
    rw [hlay, CursorLocation.blocks_insertInsn hl, hblocks]
    exact hinv

/-- **The layout lists the blocks made, in creation order.** In every builder reachable from a new
one, the block order of the layout is the block arena in creation order: no block is made without
being placed, none is placed twice, and none out of order. -/
theorem Reachable.blocks_eq_range (h : fb.Reachable) :
    fb.func.layout.blocks = (List.range fb.func.dfg.blocks).map Block.mk := by
  obtain ⟨sig, hrun⟩ := h
  induction hrun with
  | refl =>
      show Layout.new.blocks =
        (List.range (Function.makeArgValues DataFlowGraph.new 0 sig.args).1.blocks).map Block.mk
      rw [(Function.makeArgValues_frame _ _ _).2.1]
      rfl
  | tail _ hstep ih =>
      obtain ⟨c, r, hc⟩ := hstep
      exact blocks_call ih hc

/-- In the run of `reenterCalls`, the layout lists blocks `0` and `1`. -/
theorem blocks_eq_range_reenter :
    ∃ fb, (new ⟨"f", [], none⟩).runCalls reenterCalls = some fb ∧
      fb.func.layout.blocks = (List.range fb.func.dfg.blocks).map Block.mk :=
  have hrun : (new ⟨"f", [], none⟩).runCalls reenterCalls = some _ := rfl
  ⟨_, hrun, Reachable.blocks_eq_range (Reachable.of_runCalls hrun)⟩

end FunctionBuilder

end Sonatina
