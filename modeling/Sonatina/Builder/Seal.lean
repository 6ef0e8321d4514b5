import Sonatina.Builder.Preds

/-!
# Sealing Blocks

A block is sealed when all its predecessors are known: the SSA construction may then complete the
phis of the block from its predecessor list. `seal_block` seals the block the cursor is in,
`seal_all` every block of the layout, and `build` asserts in a debug build that every block of
the layout is sealed. The terminators `jump`, `br` and `br_table` assert that none of their
destinations is sealed, before they record the cursor's block as a predecessor of each.

Of the SSA builder (`ssa.rs`, not among the modelled sources) sealing is modelled from the
specification as far as the function builder's calls reach it: it adds the block to the sealed
set, and sealing a sealed block again is a failed debug assertion. Completing the incomplete phis
of the block is not modelled; only `use_var` makes such phis, and it is not modelled either.

Sealing is a promise that the predecessor list of a block is final, and the debug assertions of
the terminators keep it: along every run of builder calls, sealing included, a block that is
sealed stays sealed, its recorded predecessors do not change, and no terminator branching to it
is emitted (`sealed_preds_frozen`).

## Main results

* `sealingCall_edges`: every call appends the same edges to the recorded and the emitted lists,
  all into blocks that were unsealed, and unseals nothing.
* `sealed_preds_frozen`: a sealed block's predecessors are frozen for the rest of the run.
-/

namespace Sonatina

namespace SsaBuilder

/-- Modelled from the spec: seal a block (`seal_block`); sealing a sealed block again is a failed
debug assertion. -/
def sealBlock (ssa : SsaBuilder) (block : Block) : Option SsaBuilder :=
  if ssa.isSealed block then none else some { ssa with sealed := insert block ssa.sealed }

/-- Modelled from the spec: seal every block of the layout not sealed yet (`seal_all`). -/
def sealAll (ssa : SsaBuilder) (blocks : List Block) : SsaBuilder :=
  { ssa with sealed := ssa.sealed ∪ blocks.toFinset }

/-- The predecessors recorded for a block, in the order `append_pred` received them. -/
def preds (ssa : SsaBuilder) (block : Block) : List Block :=
  (ssa.predEdges.filter fun e => e.1 = block).map Prod.snd

end SsaBuilder

/-- The blocks whose emitted terminators branch to `block`, one per destination occurrence, in
emission order. -/
def Function.branchesInto (func : Function) (block : Block) : List Block :=
  (func.branchEdges.filter fun e => e.1 = block).map Prod.snd

namespace FunctionBuilder

/-- Seal the block the cursor is in (`seal_block`); with the cursor nowhere the `unwrap`
panics. -/
def sealBlock (fb : FunctionBuilder) : Option FunctionBuilder := do
  let block ← fb.loc.block fb.func.layout
  let ssaBuilder ← fb.ssaBuilder.sealBlock block
  pure { fb with ssaBuilder }

/-- Seal every block of the layout (`seal_all`). -/
def sealAll (fb : FunctionBuilder) : FunctionBuilder :=
  { fb with ssaBuilder := fb.ssaBuilder.sealAll fb.func.layout.blocks }

/-- Finish the function (`build`); its debug assertion needs every block of the layout
sealed. -/
def build (fb : FunctionBuilder) : Option Function :=
  if fb.func.layout.blocks.all fb.ssaBuilder.isSealed then some fb.func else none

/-- After `seal_all`, `build` returns the function. -/
theorem build_sealAll (fb : FunctionBuilder) : fb.sealAll.build = some fb.func := by
  unfold build
  exact if_pos (List.all_eq_true.2 fun _ hb =>
    decide_eq_true (Finset.mem_union_right _ (List.mem_toFinset.2 hb)))

/-- A public call of the builder: a call of `BuilderCall`, `seal_block` or `seal_all`. -/
inductive SealingCall where
  | call (c : BuilderCall)
  | sealBlock
  | sealAll

/-- Run one call; `none` when it panics. -/
def sealingCall (fb : FunctionBuilder) : SealingCall → Option FunctionBuilder
  | .call c => (fb.call c).map Prod.fst
  | .sealBlock => fb.sealBlock
  | .sealAll => some fb.sealAll

/-- One call, sealing included, that does not panic. -/
def SealingStep (fb fb' : FunctionBuilder) : Prop :=
  ∃ c, fb.sealingCall c = some fb'

/-- Run calls in order; `none` when one panics. -/
def runSealing (fb : FunctionBuilder) : List SealingCall → Option FunctionBuilder
  | [] => some fb
  | c :: cs => (fb.sealingCall c).bind fun fb => fb.runSealing cs

variable {fb fb' : FunctionBuilder} {block : Block}

/-- A run of calls that does not panic is a run of steps. -/
theorem runSealing_steps {cs : List SealingCall} (h : fb.runSealing cs = some fb') :
    Relation.ReflTransGen SealingStep fb fb' := by
  induction cs generalizing fb with
  | nil => cases h; exact .refl
  | cons c cs ih =>
      obtain ⟨fb₁, h₁, h₂⟩ := Option.bind_eq_some.1 h
      exact .head ⟨c, h₁⟩ (ih h₂)

/-- A builder call seals nothing, and the edges it records all go into blocks that were
unsealed. -/
theorem call_sealed {c : BuilderCall} {r : Option Value} (h : fb.call c = some (fb', r)) :
    fb'.ssaBuilder.sealed = fb.ssaBuilder.sealed ∧ ∃ edges,
      fb'.ssaBuilder.predEdges = fb.ssaBuilder.predEdges ++ edges ∧
        ∀ e ∈ edges, e.1 ∉ fb.ssaBuilder.sealed := by
  have frame : fb'.ssaBuilder = fb.ssaBuilder → fb'.ssaBuilder.sealed = fb.ssaBuilder.sealed ∧
      ∃ edges, fb'.ssaBuilder.predEdges = fb.ssaBuilder.predEdges ++ edges ∧
        ∀ e ∈ edges, e.1 ∉ fb.ssaBuilder.sealed :=
    fun hs => ⟨by rw [hs], [], by rw [hs, List.append_nil], nofun⟩
  rcases call_cases h with ⟨-, ⟨layout, -, rfl⟩ | ⟨block, rfl⟩ | ⟨imm, rfl⟩ |
    ⟨insn, value, block, dfg, -, rfl⟩⟩ | ⟨data, ssa, r', hi, -, hedges, hsealed, hdests, -⟩
  · exact frame rfl
  · exact frame rfl
  · exact frame rfl
  · exact frame rfl
  obtain ⟨hssa, -, -, -, layout, hl, -⟩ := insertInsn_frame hi
  obtain ⟨block, hb, -⟩ := CursorLocation.insnBlock_insertInsn hl
  rw [hssa]
  refine ⟨hsealed, _, hedges block hb, fun e he => ?_⟩
  obtain ⟨d, hd, rfl⟩ := List.mem_map.1 he
  exact hdests d hd

/-- **What one call does to the edges.** A call, sealing included, unseals nothing, and appends
the same edges to the recorded predecessors and to the emitted terminators, all into blocks that
were unsealed before it. -/
theorem sealingCall_edges {c : SealingCall} (h : fb.sealingCall c = some fb') :
    fb.ssaBuilder.sealed ⊆ fb'.ssaBuilder.sealed ∧ ∃ edges,
      fb'.ssaBuilder.predEdges = fb.ssaBuilder.predEdges ++ edges ∧
        fb'.func.branchEdges = fb.func.branchEdges ++ edges ∧
        ∀ e ∈ edges, e.1 ∉ fb.ssaBuilder.sealed := by
  cases c with
  | call c =>
      obtain ⟨⟨fb₁, r⟩, hc, rfl⟩ := Option.map_eq_some'.1 h
      obtain ⟨hsealed, edges, hp, hunsealed⟩ := call_sealed hc
      obtain ⟨edges', hp', hb'⟩ := call_edges hc
      obtain rfl := List.append_cancel_left (hp'.symm.trans hp)
      exact ⟨hsealed.ge, edges', hp', hb', hunsealed⟩
  | sealBlock =>
      simp only [sealingCall, sealBlock, bind, Option.bind_eq_some, pure, Option.some.injEq] at h
      obtain ⟨block, -, ssa, hs, rfl⟩ := h
      unfold SsaBuilder.sealBlock at hs
      split_ifs at hs
      cases hs
      exact ⟨Finset.subset_insert _ _, [], by simp, by simp, nofun⟩
  | sealAll =>
      cases h
      exact ⟨Finset.subset_union_left, [], by simp [sealAll, SsaBuilder.sealAll],
        by simp [sealAll], nofun⟩

/-- Edges that all go into unsealed blocks add no edge into a sealed block. -/
theorem filter_edges_sealed {edges : List (Block × Block)} {sealed : Finset Block}
    (hunsealed : ∀ e ∈ edges, e.1 ∉ sealed) (hb : block ∈ sealed) :
    (edges.filter fun e => e.1 = block) = [] :=
  List.filter_eq_nil_iff.2 fun e he hblock => hunsealed e he (of_decide_eq_true hblock ▸ hb)

/-- **Sealing freezes a block's predecessors.** Along every run of builder calls, `seal_block` and
`seal_all` included, a block sealed at the start stays sealed, the predecessors recorded for it
do not change, and no terminator branching to it is emitted. -/
theorem sealed_preds_frozen (h : Relation.ReflTransGen SealingStep fb fb')
    (hb : block ∈ fb.ssaBuilder.sealed) :
    block ∈ fb'.ssaBuilder.sealed ∧ fb'.ssaBuilder.preds block = fb.ssaBuilder.preds block ∧
      fb'.func.branchesInto block = fb.func.branchesInto block := by
  induction h with
  | refl => exact ⟨hb, rfl, rfl⟩
  | tail _ hstep ih =>
      obtain ⟨c, hc⟩ := hstep
      obtain ⟨hsub, edges, hp, he, hunsealed⟩ := sealingCall_edges hc
      have hnil := filter_edges_sealed hunsealed ih.1
      refine ⟨hsub ih.1, ?_, ?_⟩
      · rw [← ih.2.1, SsaBuilder.preds, hp, List.filter_append, hnil, List.append_nil]
        rfl
      · rw [← ih.2.2, Function.branchesInto, he, List.filter_append, hnil, List.append_nil]
        rfl

/-- Two blocks; block `1` is sealed first; then block `0` jumps to itself, and `seal_all` seals
it. -/
def sealFirstCalls : List SealingCall :=
  [.call .appendBlock, .call .appendBlock, .call (.switchToBlock ⟨1⟩), .sealBlock]

/-- The run continued after `sealFirstCalls`. -/
def sealThenCalls : List SealingCall :=
  [.call (.switchToBlock ⟨0⟩), .call (.jump ⟨0⟩), .sealAll]

/- A jump to the sealed block fails its debug assertion. -/
example : ((new ⟨"f", [], none⟩).runSealing (sealFirstCalls ++ [.call (.jump ⟨1⟩)])).isNone := by
  decide

/-- The builder after `sealFirstCalls`. -/
def sealFirst : FunctionBuilder :=
  ((new ⟨"f", [], none⟩).runSealing sealFirstCalls).getD (new ⟨"f", [], none⟩)

/-- Continuing from `sealFirst` with `sealThenCalls`, block `1` keeps its (empty) predecessor
list, while block `0` gets one. -/
theorem sealed_preds_frozen_sealFirst :
    ∃ fb', sealFirst.runSealing sealThenCalls = some fb' ∧
      (⟨1⟩ : Block) ∈ sealFirst.ssaBuilder.sealed ∧
      ((⟨1⟩ : Block) ∈ fb'.ssaBuilder.sealed ∧
        fb'.ssaBuilder.preds ⟨1⟩ = sealFirst.ssaBuilder.preds ⟨1⟩ ∧
        fb'.func.branchesInto ⟨1⟩ = sealFirst.func.branchesInto ⟨1⟩) :=
  have h : sealFirst.runSealing sealThenCalls = some _ := rfl
  ⟨_, h, by decide, sealed_preds_frozen (runSealing_steps h) (by decide)⟩

end FunctionBuilder

end Sonatina
