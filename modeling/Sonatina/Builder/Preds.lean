import Sonatina.Builder.FuncBuilder

/-!
# Predecessor Recording

When the function builder emits `jump`, `br` or `br_table`, it reads the block the cursor is in
and hands `append_pred(dest, block)` to the SSA builder for each destination occurrence, before
the terminator is inserted. The SSA construction later reads these edges as the predecessor
lists of the blocks, so they must be the edges the emitted terminators really have.

`Function.branchEdges` reads those edges off the function: each instruction of the arena, in
arena order (the order of emission), in the block the layout puts it in, once per destination
occurrence of its branch view. Every call appends the same edges to both lists
(`call_edges`): the block the cursor reports is the block the terminator lands in
(`CursorLocation.insnBlock_insertInsn`), and the other calls add no terminator and move none.

## Main results

* `call_edges`: one call appends the same edges to the recorded and to the emitted list.
* `predEdges_eq_branchEdges`: in every reachable builder the recorded edges are the emitted ones.
-/

namespace Sonatina

/-- **The emitted branch edges.** For each instruction of the arena, in arena order, that the
layout places in a block: one `(destination, block)` pair per destination occurrence. -/
def Function.branchEdges (func : Function) : List (Block × Block) :=
  (func.dfg.insns.map InsnData.analyzeBranch).enum.flatMap fun p =>
    ((func.layout.insnBlock ⟨p.1⟩).map p.2.edgesFrom).getD []

namespace Function

variable {func func' : Function}

/-- The emitted edges depend only on the branch views and the block map. -/
theorem branchEdges_congr (hinsns : func'.dfg.insns.map InsnData.analyzeBranch =
      func.dfg.insns.map InsnData.analyzeBranch)
    (hblock : func'.layout.insnBlock = func.layout.insnBlock) :
    func'.branchEdges = func.branchEdges := by
  simp only [branchEdges, hinsns, hblock]

/-- Emitting one instruction into `block` appends its edges. -/
theorem branchEdges_push {data : InsnData} {block : Block}
    (hinsns : func'.dfg.insns = func.dfg.insns ++ [data])
    (hblock : func'.layout.insnBlock =
      Function.update func.layout.insnBlock ⟨func.dfg.insns.length⟩ (some block)) :
    func'.branchEdges = func.branchEdges ++ data.analyzeBranch.edgesFrom block := by
  simp only [branchEdges, hinsns, hblock, List.map_append, List.enum_append, List.flatMap_append,
    List.length_map, List.map_singleton, List.enumFrom_singleton, List.flatMap_singleton,
    Function.update_same, Option.map_some', Option.getD_some]
  congr 1
  refine List.flatMap_congr fun p hp => ?_
  have hlt := List.fst_lt_of_mem_enum hp
  rw [Function.update_noteq (by simp only [ne_eq, Insn.mk.injEq]; simp at hlt; omega)]

/-- A new function has emitted no edges. -/
theorem branchEdges_new (sig : Signature) : (Function.new sig).branchEdges = [] := by
  suffices ∀ dfg idx tys, (makeArgValues dfg idx tys).1.insns = dfg.insns by
    simp [Function.new, branchEdges, this, DataFlowGraph.new]
  intro dfg idx tys
  induction tys generalizing dfg idx with
  | nil => rfl
  | cons ty tys ih => exact ih _ _

end Function

namespace FunctionBuilder

variable {fb fb' : FunctionBuilder} {data : InsnData} {r : Option Value}

/-- `insert_insn` keeps the recorded edges and appends the inserted instruction's edges, from
the block the cursor reports, to the emitted ones. -/
theorem insertInsn_branchEdges (h : fb.insertInsn data = some (fb', r)) :
    fb'.ssaBuilder = fb.ssaBuilder ∧ ∃ block, fb.loc.block fb.func.layout = some block ∧
      fb'.func.branchEdges = fb.func.branchEdges ++ data.analyzeBranch.edgesFrom block := by
  obtain ⟨hssa, -, hinsns, -, layout, hl, hlayout⟩ := insertInsn_frame h
  obtain ⟨block, hb, hblock⟩ := CursorLocation.insnBlock_insertInsn hl
  exact ⟨hssa, block, hb, Function.branchEdges_push hinsns (hlayout ▸ hblock)⟩

/-- A step that leaves both edge lists as they are appends no edges. -/
theorem edges_nil (hp : fb'.ssaBuilder.predEdges = fb.ssaBuilder.predEdges)
    (hb : fb'.func.branchEdges = fb.func.branchEdges) :
    ∃ edges, fb'.ssaBuilder.predEdges = fb.ssaBuilder.predEdges ++ edges ∧
      fb'.func.branchEdges = fb.func.branchEdges ++ edges :=
  ⟨[], by rw [hp, List.append_nil], by rw [hb, List.append_nil]⟩

/-- **One call, the same edges on both sides.** Every call appends to the edges handed to
`append_pred` exactly the edges it adds to the emitted terminators. -/
theorem call_edges {c : BuilderCall} (h : fb.call c = some (fb', r)) :
    ∃ edges, fb'.ssaBuilder.predEdges = fb.ssaBuilder.predEdges ++ edges ∧
      fb'.func.branchEdges = fb.func.branchEdges ++ edges := by
  rcases call_cases h with ⟨-, ⟨layout, hl, rfl⟩ | ⟨block, rfl⟩ | ⟨imm, rfl⟩ |
    ⟨insn, value, block, dfg, hd, rfl⟩⟩ | ⟨data, ssa, r', hi, -, hssa, -⟩
  · obtain ⟨-, rfl⟩ := Layout.appendBlock_eq_some hl
    exact edges_nil rfl (Function.branchEdges_congr rfl rfl)
  · exact edges_nil rfl rfl
  · exact edges_nil rfl (Function.branchEdges_congr (by simp [makeImmValue]) rfl)
  · obtain ⟨old, new, hold, hnew, rfl⟩ := DataFlowGraph.appendPhiArg_eq_some.1 hd
    have hphi : new.analyzeBranch = old.analyzeBranch := by
      cases old <;> cases hnew
      rfl
    refine edges_nil rfl (Function.branchEdges_congr ?_ rfl)
    rw [List.map_set, hphi]
    exact List.set_of_getElem? (by rw [List.getElem?_map, ← DataFlowGraph.insnData?, hold]; rfl)
  · obtain ⟨hssa', block, hb, hedges⟩ := insertInsn_branchEdges hi
    exact ⟨_, by rw [hssa', hssa block hb], hedges⟩

/-- **Predecessor recording agrees with the emitted terminators.** In every builder reachable from
a new one, the `(destination, predecessor)` pairs handed to `append_pred`, in call order, are the
pairs read off the emitted terminators: each `jump`, `br` and `br_table` in emission order, the
block it was inserted into, and each occurrence of a destination (a jump's destination, a
branch's two, a table's default and then each entry). -/
theorem predEdges_eq_branchEdges {fb : FunctionBuilder} (h : fb.Reachable) :
    fb.ssaBuilder.predEdges = fb.func.branchEdges := by
  obtain ⟨sig, hrun⟩ := h
  induction hrun with
  | refl => exact (Function.branchEdges_new sig).symm
  | tail _ hstep ih =>
      obtain ⟨c, r, hc⟩ := hstep
      obtain ⟨edges, hp, hb⟩ := call_edges hc
      rw [hp, hb, ih]

/-- The calls of the `then_else_merge_block` test: four blocks, a `br` from the entry, a jump
from each arm to the merge block, and a phi there. -/
def thenElseMergeCalls : List BuilderCall :=
  [.appendBlock, .appendBlock, .appendBlock, .appendBlock,
    .switchToBlock ⟨0⟩, .br ⟨0⟩ ⟨1⟩ ⟨2⟩,
    .switchToBlock ⟨1⟩, .makeImmValue (.i64 1), .jump ⟨3⟩,
    .switchToBlock ⟨2⟩, .makeImmValue (.i64 2), .jump ⟨3⟩,
    .switchToBlock ⟨3⟩, .phi [(⟨1⟩, ⟨1⟩), (⟨2⟩, ⟨2⟩)], .binary .add ⟨3⟩ ⟨0⟩, .ret none]

/-- The test's run does not panic, and its recorded edges are its emitted ones. -/
theorem thenElseMerge_predEdges :
    ∃ fb, (new ⟨"test_func", [.i64], none⟩).runCalls thenElseMergeCalls = some fb ∧
      fb.ssaBuilder.predEdges = fb.func.branchEdges :=
  have hrun : (new ⟨"test_func", [.i64], none⟩).runCalls thenElseMergeCalls = some _ := rfl
  ⟨_, hrun, predEdges_eq_branchEdges (Reachable.of_runCalls hrun)⟩

end FunctionBuilder

end Sonatina
