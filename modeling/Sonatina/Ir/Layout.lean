import Mathlib.Data.List.Nodup
import Sonatina.Ir.Value

/-!
# Layout

`Layout` orders the blocks of a function and the instructions of each block, and records for
every inserted instruction the block it belongs to. Its source, `layout.rs`, is not among the
modelled sources, and the specification gives its contract only, so the three insertions the
function builder reaches through its cursor are modelled from the specification, each with the
precondition that keeps the contract: a block is appended once, an instruction is inserted once,
and it goes into a block of the layout.

The contract (`Layout.WellFormed`): an inserted instruction belongs to exactly one block, appears
exactly once in that block's list, and that block is in the layout.

## Main results

* `wellFormed_appendBlock`, `wellFormed_appendInsn`, `wellFormed_insertInsnAfter`: each insertion
  keeps the contract.
* `insnBlock_appendInsn`, `insnBlock_insertInsnAfter`: the block an insertion puts an
  instruction into, and that no other instruction moves.
-/

namespace Sonatina

/-- Modelled from the spec: the block order of a function, the instruction order of each block,
and the block of each inserted instruction (`Layout`). -/
structure Layout where
  blocks : List Block
  insns : Block → List Insn
  insnBlock : Insn → Option Block

namespace Layout

/-- The empty layout (`Layout::new`). -/
def new : Layout :=
  ⟨[], fun _ => [], fun _ => none⟩

/-- Whether an instruction is in the layout (`is_insn_inserted`). -/
def isInsnInserted (layout : Layout) (insn : Insn) : Bool :=
  (layout.insnBlock insn).isSome

/-- Whether a block is in the layout (`is_block_inserted`). -/
def isBlockInserted (layout : Layout) (block : Block) : Bool :=
  decide (block ∈ layout.blocks)

/-- Append a block to the block order (`append_block`); a block already there is rejected. -/
def appendBlock (layout : Layout) (block : Block) : Option Layout :=
  if layout.isBlockInserted block then none
  else some { layout with blocks := layout.blocks ++ [block] }

/-- Append an instruction to the end of a block (`append_insn`); the instruction must not be in
the layout yet, and the block must be. -/
def appendInsn (layout : Layout) (insn : Insn) (block : Block) : Option Layout :=
  if layout.isInsnInserted insn || !layout.isBlockInserted block then none
  else some { layout with
    insns := Function.update layout.insns block (layout.insns block ++ [insn])
    insnBlock := Function.update layout.insnBlock insn (some block) }

/-- Put `insn` right after `after` in an instruction list. -/
def insertAfter (after insn : Insn) : List Insn → List Insn
  | [] => []
  | i :: rest => if i = after then i :: insn :: rest else i :: insertAfter after insn rest

/-- Insert an instruction right after another, in the other's block (`insert_insn_after`); the
instruction must not be in the layout yet, and the other must be. -/
def insertInsnAfter (layout : Layout) (insn after : Insn) : Option Layout :=
  (layout.insnBlock after).bind fun block =>
    if layout.isInsnInserted insn then none
    else some { layout with
      insns := Function.update layout.insns block (insertAfter after insn (layout.insns block))
      insnBlock := Function.update layout.insnBlock insn (some block) }

/-! ### The contract -/

/-- **The layout contract.** Every inserted instruction belongs to exactly one block (the
instruction lists and the block map agree), appears once in its block's list, and its block is
in the layout, which lists every block once. -/
structure WellFormed (layout : Layout) : Prop where
  mem_insns : ∀ insn block, insn ∈ layout.insns block ↔ layout.insnBlock insn = some block
  insns_nodup : ∀ block, (layout.insns block).Nodup
  blocks_nodup : layout.blocks.Nodup
  block_mem : ∀ insn block, layout.insnBlock insn = some block → block ∈ layout.blocks

/-- The empty layout keeps the contract. -/
theorem wellFormed_new : new.WellFormed :=
  ⟨fun _ _ => iff_of_false (List.not_mem_nil _) nofun, fun _ => List.nodup_nil, List.nodup_nil,
    fun _ _ => nofun⟩

/-- Inserting after another instruction adds the instruction when the other is present. -/
theorem mem_insertAfter {after insn x : Insn} {l : List Insn} :
    x ∈ insertAfter after insn l ↔ x ∈ l ∨ (x = insn ∧ after ∈ l) := by
  induction l with
  | nil => simp [insertAfter]
  | cons i rest ih =>
      unfold insertAfter
      split_ifs with h
      · subst h
        simp only [List.mem_cons, true_or, and_true, or_assoc]
        exact or_congr_right or_comm
      · simp only [List.mem_cons, ih, Ne.symm h, false_or, or_assoc]

/-- Inserting a missing instruction keeps a list free of duplicates. -/
theorem nodup_insertAfter {after insn : Insn} {l : List Insn} (hl : l.Nodup) (hins : insn ∉ l) :
    (insertAfter after insn l).Nodup := by
  induction l with
  | nil => exact List.nodup_nil
  | cons i rest ih =>
      rw [List.nodup_cons] at hl
      rw [List.mem_cons, not_or] at hins
      unfold insertAfter
      split_ifs
      · exact List.nodup_cons.2 ⟨by simp [Ne.symm hins.1, hl.1], List.nodup_cons.2 ⟨hins.2, hl.2⟩⟩
      · exact List.nodup_cons.2 ⟨fun h => (mem_insertAfter.1 h).elim hl.1 (fun h' =>
          hins.1 h'.1.symm), ih hl.2 hins.2⟩

/-- Inserting after the last element of a list, when it occurs nowhere before, appends. -/
theorem insertAfter_append_last {after insn : Insn} {l : List Insn} (h : after ∉ l) :
    insertAfter after insn (l ++ [after]) = l ++ [after, insn] := by
  induction l with
  | nil => simp [insertAfter]
  | cons i rest ih =>
      rw [List.mem_cons, not_or] at h
      simp [insertAfter, Ne.symm h.1, ih h.2]

variable {layout layout' : Layout} {insn after : Insn} {block : Block}

/-- What `append_block` does: append a block not in the layout. -/
theorem appendBlock_eq_some (h : layout.appendBlock block = some layout') :
    block ∉ layout.blocks ∧ layout' = { layout with blocks := layout.blocks ++ [block] } := by
  unfold appendBlock isBlockInserted at h
  split_ifs at h with hb
  cases h
  exact ⟨by simpa using hb, rfl⟩

/-- What `append_insn` does: append a missing instruction to a block of the layout. -/
theorem appendInsn_eq_some (h : layout.appendInsn insn block = some layout') :
    layout.insnBlock insn = none ∧ block ∈ layout.blocks ∧
      layout' = { layout with
        insns := Function.update layout.insns block (layout.insns block ++ [insn])
        insnBlock := Function.update layout.insnBlock insn (some block) } := by
  unfold appendInsn isInsnInserted isBlockInserted at h
  split_ifs at h with hb
  cases h
  simp only [Bool.or_eq_true, Option.isSome_iff_ne_none, Bool.not_eq_true', decide_eq_false_iff_not,
    not_or, not_not, ne_eq] at hb
  exact ⟨hb.1, hb.2, rfl⟩

/-- What `insert_insn_after` does: put a missing instruction after a placed one, in its block. -/
theorem insertInsnAfter_eq_some (h : layout.insertInsnAfter insn after = some layout') :
    ∃ block, layout.insnBlock after = some block ∧ layout.insnBlock insn = none ∧
      layout' = { layout with
        insns := Function.update layout.insns block (insertAfter after insn (layout.insns block))
        insnBlock := Function.update layout.insnBlock insn (some block) } := by
  unfold insertInsnAfter isInsnInserted at h
  cases hb : layout.insnBlock after with
  | none => simp [hb] at h
  | some b =>
      simp only [hb, Option.some_bind] at h
      split_ifs at h with hi
      exact ⟨b, rfl, by simpa using hi, (Option.some.inj h).symm⟩

/-- Appending an instruction puts it into the given block and moves no other instruction. -/
theorem insnBlock_appendInsn (h : layout.appendInsn insn block = some layout') :
    layout'.insnBlock = Function.update layout.insnBlock insn (some block) := by
  obtain ⟨-, -, rfl⟩ := appendInsn_eq_some h
  rfl

/-- Inserting after another instruction puts the instruction into the other's block and moves
no other instruction. -/
theorem insnBlock_insertInsnAfter (h : layout.insertInsnAfter insn after = some layout') :
    ∃ block, layout.insnBlock after = some block ∧
      layout'.insnBlock = Function.update layout.insnBlock insn (some block) := by
  obtain ⟨b, hb, -, rfl⟩ := insertInsnAfter_eq_some h
  exact ⟨b, hb, rfl⟩

/-- Appending a block keeps the contract. -/
theorem wellFormed_appendBlock (hwf : layout.WellFormed)
    (h : layout.appendBlock block = some layout') :
    layout'.WellFormed := by
  obtain ⟨hb, rfl⟩ := appendBlock_eq_some h
  exact ⟨hwf.mem_insns, hwf.insns_nodup, List.concat_eq_append .. ▸ hwf.blocks_nodup.concat hb,
    fun i b hi => List.mem_append_left _ (hwf.block_mem i b hi)⟩

/-- An update at one block that adds one instruction missing from the layout keeps the
contract. -/
theorem wellFormed_of_update (hwf : layout.WellFormed) {l : List Insn}
    (hnone : layout.insnBlock insn = none)
    (hblock : block ∈ layout.blocks) (hmem : ∀ x, x ∈ l ↔ x ∈ layout.insns block ∨ x = insn)
    (hnodup : l.Nodup) :
    WellFormed { layout with
      insns := Function.update layout.insns block l
      insnBlock := Function.update layout.insnBlock insn (some block) } := by
  refine ⟨fun x c => ?_, fun c => ?_, hwf.blocks_nodup, fun x c hx => ?_⟩
  · simp only [Function.update_apply]
    by_cases hc : c = block <;> by_cases hx : x = insn
    · simp [hc, hx, hmem]
    · simp [hc, hx, hmem, hwf.mem_insns]
    · subst hx; simp [hc, hwf.mem_insns, hnone, Ne.symm hc]
    · simp [hc, hx, hwf.mem_insns]
  · simp only [Function.update_apply]
    split_ifs
    exacts [hnodup, hwf.insns_nodup c]
  · simp only [Function.update_apply] at hx
    split_ifs at hx
    · cases hx; exact hblock
    · exact hwf.block_mem x c hx

/-- Appending an instruction keeps the contract. -/
theorem wellFormed_appendInsn (hwf : layout.WellFormed)
    (h : layout.appendInsn insn block = some layout') :
    layout'.WellFormed := by
  obtain ⟨hnone, hblock, rfl⟩ := appendInsn_eq_some h
  have hnot : insn ∉ layout.insns block := by rw [hwf.mem_insns, hnone]; exact nofun
  exact wellFormed_of_update hwf hnone hblock (fun x => by simp)
    (List.concat_eq_append .. ▸ (hwf.insns_nodup block).concat hnot)

/-- Inserting after another instruction keeps the contract. -/
theorem wellFormed_insertInsnAfter (hwf : layout.WellFormed)
    (h : layout.insertInsnAfter insn after = some layout') : layout'.WellFormed := by
  obtain ⟨b, hb, hnone, rfl⟩ := insertInsnAfter_eq_some h
  have hnot : insn ∉ layout.insns b := by rw [hwf.mem_insns, hnone]; exact nofun
  have hafter : after ∈ layout.insns b := (hwf.mem_insns after b).2 hb
  exact wellFormed_of_update hwf hnone (hwf.block_mem after b hb)
    (fun x => by rw [mem_insertAfter, and_iff_left hafter])
    (nodup_insertAfter (hwf.insns_nodup b) hnot)

end Layout

end Sonatina
