import Jack.Proofs.Lowering.Labels
import Jack.Proofs.Lowering.StackHeight

/-!
Contract: every jump in lowered code has exactly one place to go.

Owns: the names that code jumps to, what it means that the jumps of a block are
resolved, and that this holds of every block of a class.

Does not own: which numbers labels carry.

A construct jumps to its own two labels only, and both stand in its code. So the
targets of a jump never have to be looked for outside the construct.
-/

set_option autoImplicit false

namespace Jack.Machine

/-- The names that code jumps to, in the order of the jumps. -/
def jumpTargets (code : List Instruction) : List Bytes :=
  code.filterMap Instruction.jumpTarget?

/-- The jumps of a block are resolved: no label stands twice, and every jump goes to a
label that stands once. -/
structure JumpsResolved (block : List Instruction) : Prop where
  distinct : (labelNames block).Nodup
  once : ∀ target ∈ jumpTargets block, (labelNames block).count target = 1

theorem jumpTargets_append (front back : List Instruction) :
    jumpTargets (front ++ back) = jumpTargets front ++ jumpTargets back :=
  List.filterMap_append

theorem jumpTargets_cons {instruction : Instruction}
    (plain : instruction.jumpTarget? = none) (rest : List Instruction) :
    jumpTargets (instruction :: rest) = jumpTargets rest :=
  List.filterMap_cons_none plain

theorem jumpTargets_jump {instruction : Instruction} {target : Bytes}
    (jumps : instruction.jumpTarget? = some target) (rest : List Instruction) :
    jumpTargets (instruction :: rest) = target :: jumpTargets rest :=
  List.filterMap_cons_some jumps

end Jack.Machine

namespace Jack.Lowering

open Machine (Instruction JumpsResolved jumpTargets jumpTargets_append jumpTargets_cons
  jumpTargets_jump labelNames)

section Emitted

variable {setting : Setting} {label next : Nat} {code : List Instruction}

/-- Code that only computes has no jumps. -/
theorem Computes.jumpTargets_eq_nil (computes : Computes setting label code next) :
    jumpTargets code = [] := by
  rw [jumpTargets, List.filterMap_eq_nil_iff]
  intro instruction member
  exact Instruction.jumpTarget?_of_isStraight (computes.computing instruction member).isStraight

/-- An assignment has no jump in it, also where the target is an element. -/
private theorem jumpTargets_of_emits_letTo {target : Term} {value : Expression} {line : Int}
    (emitted : Emits (statement (.letTo target value line)) setting label code next ()) :
    jumpTargets code = [] := by
  rcases target_of_emits_letTo emitted with
    ⟨name, targetLine, rfl⟩ | ⟨array, index, targetLine, rfl⟩
  · obtain ⟨binding, valueCode, -, valueEmits, rfl⟩ := emits_letName_iff.mp emitted
    have computes := computes_of_emits_expression value valueEmits
    rw [jumpTargets_append, computes.jumpTargets_eq_nil]
    rfl
  · obtain ⟨base, indexCode, middle, valueCode, -, indexEmits, valueEmits, rfl⟩ :=
      emits_letElement_iff.mp emitted
    have indexComputes := computes_of_emits_expression index indexEmits
    have valueComputes := computes_of_emits_expression value valueEmits
    rw [jumpTargets_append, indexComputes.jumpTargets_eq_nil, jumpTargets_cons rfl,
      jumpTargets_cons rfl, jumpTargets_append, valueComputes.jumpTargets_eq_nil]
    rfl

mutual

/-- A jump of a statement goes to a label of the same statement. By recursion on the tree, since
branches and bodies bring jumps of their own. -/
theorem jumpTargets_subset_of_emits_statement : (tree : Statement) → {label next : Nat} →
    {code : List Instruction} → Emits (statement tree) setting label code next () →
    jumpTargets code ⊆ labelNames code
  | .letTo target value line, _, _, _, emitted => by
      rw [jumpTargets_of_emits_letTo emitted]
      exact List.nil_subset _
  | .ifElse condition whenTrue otherwise line, _, _, _, emitted => by
      obtain ⟨conditionCode, number, otherwiseCode, middle, whenTrueCode, conditionEmits,
        otherwiseEmits, whenTrueEmits, rfl⟩ := emits_ifElse_iff.mp emitted
      have computes := computes_of_emits_expression condition conditionEmits
      have inOtherwise := jumpTargets_subset_of_emits_alternative otherwise otherwiseEmits
      have inWhenTrue := jumpTargets_subset_of_emits_statements whenTrue whenTrueEmits
      rw [jumpTargets_append, computes.jumpTargets_eq_nil, List.nil_append,
        jumpTargets_jump rfl, jumpTargets_append, jumpTargets_jump rfl, jumpTargets_cons rfl,
        jumpTargets_append, jumpTargets_cons rfl, labelNames_append,
        computes.labelNames_eq_nil, List.nil_append, labelNames_cons rfl, labelNames_append,
        labelNames_cons rfl, labelNames_label, labelNames_append, labelNames_label]
      intro target member
      simp only [List.mem_append, List.mem_cons] at member ⊢
      rcases member with rfl | member | rfl | member | member
      · exact .inr (.inl rfl)
      · exact .inl (inOtherwise member)
      · exact .inr (.inr (.inr (.inl rfl)))
      · exact .inr (.inr (.inl (inWhenTrue member)))
      · simp [jumpTargets] at member
  | .whileDo condition body line, _, _, _, emitted => by
      obtain ⟨conditionCode, middle, bodyCode, conditionEmits, bodyEmits, rfl⟩ :=
        emits_whileDo_iff.mp emitted
      have computes := computes_of_emits_expression condition conditionEmits
      have inBody := jumpTargets_subset_of_emits_statements body bodyEmits
      rw [jumpTargets_cons rfl, jumpTargets_append, computes.jumpTargets_eq_nil,
        List.nil_append, jumpTargets_cons rfl, jumpTargets_jump rfl, jumpTargets_append,
        jumpTargets_jump rfl, jumpTargets_cons rfl, labelNames_label, labelNames_append,
        computes.labelNames_eq_nil, List.nil_append, labelNames_cons rfl, labelNames_cons rfl,
        labelNames_append, labelNames_cons rfl, labelNames_label]
      intro target member
      simp only [List.mem_append, List.mem_cons] at member ⊢
      rcases member with rfl | member | rfl | member
      · exact .inr (.inr (.inl rfl))
      · exact .inr (.inl (inBody member))
      · exact .inl rfl
      · simp [jumpTargets] at member
  | .doCall called line, _, _, _, emitted => by
      obtain ⟨callCode, callEmits, rfl⟩ := emits_doCall_iff.mp emitted
      have computes := computes_of_emits_call called callEmits
      rw [jumpTargets_append, computes.jumpTargets_eq_nil]
      exact List.nil_subset _
  | .giveBack none line, _, _, _, emitted => by
      obtain ⟨rfl, -⟩ := emits_giveBack_none_iff.mp emitted
      exact List.nil_subset _
  | .giveBack (some value) line, _, _, _, emitted => by
      obtain ⟨valueCode, valueEmits, rfl⟩ := emits_giveBack_some_iff.mp emitted
      have computes := computes_of_emits_expression value valueEmits
      rw [jumpTargets_append, computes.jumpTargets_eq_nil]
      exact List.nil_subset _

theorem jumpTargets_subset_of_emits_statements : (trees : List Statement) →
    {label next : Nat} → {code : List Instruction} →
    Emits (statements trees) setting label code next () → jumpTargets code ⊆ labelNames code
  | [], _, _, _, emitted => by
      obtain ⟨rfl, -⟩ := emits_statements_nil_iff.mp emitted
      exact List.nil_subset _
  | first :: rest, _, _, _, emitted => by
      obtain ⟨firstCode, middle, restCode, firstEmits, restEmits, rfl⟩ :=
        emits_statements_cons_iff.mp emitted
      rw [jumpTargets_append, labelNames_append]
      have inFirst := jumpTargets_subset_of_emits_statement first firstEmits
      have inRest := jumpTargets_subset_of_emits_statements rest restEmits
      exact List.append_subset.mpr ⟨List.subset_append_of_subset_left _ inFirst,
        List.subset_append_of_subset_right _ inRest⟩

theorem jumpTargets_subset_of_emits_alternative : (otherwise : Option (List Statement)) →
    {label next : Nat} → {code : List Instruction} →
    Emits (alternative otherwise) setting label code next () →
    jumpTargets code ⊆ labelNames code
  | none, _, _, _, emitted => by
      obtain ⟨rfl, -⟩ := emits_statements_nil_iff.mp (emits_alternative_iff.mp emitted)
      exact List.nil_subset _
  | some body, _, _, _, emitted =>
      jumpTargets_subset_of_emits_statements body (emits_alternative_iff.mp emitted)

end

end Emitted

/-- What stands in front of the statements neither jumps nor is jumped to. -/
private theorem labels_and_jumps_prologueCode (kind : SubroutineKind) (fields : Nat) :
    labelNames (prologueCode kind fields) = [] ∧ jumpTargets (prologueCode kind fields) = [] := by
  cases kind <;> exact ⟨rfl, rfl⟩

/-- The prologue adds neither labels nor jumps. -/
theorem IsCodeOf.jumpsResolved {tree : Subroutine} {setting : Setting}
    {function : FunctionCode} (isCode : IsCodeOf tree setting function) :
    JumpsResolved function.block := by
  obtain ⟨bodyCode, next, emitted, same⟩ := isCode.block_eq
  obtain ⟨noLabels, noJumps⟩ :=
    labels_and_jumps_prologueCode tree.kind (setting.bindings.count .field)
  have numbered := labelsWithin_of_emits_statements _ emitted
  have distinct : (labelNames bodyCode).Nodup := numbered.distinct.of_map
  have labelsEq : labelNames function.block = labelNames bodyCode := by
    rw [same, labelNames_append, noLabels, List.nil_append]
  have jumpsEq : jumpTargets function.block = jumpTargets bodyCode := by
    rw [same, jumpTargets_append, noJumps, List.nil_append]
  refine ⟨by rwa [labelsEq], ?_⟩
  intro target jumps
  rw [labelsEq]
  rw [jumpsEq] at jumps
  exact List.count_eq_one_of_mem distinct
    (jumpTargets_subset_of_emits_statements _ emitted jumps)

/-- In every block that a class adds no label stands twice and every jump goes to a label
of the block. All code that the class adds stands in blocks. -/
theorem lowered_blocks_resolve_jumps {context final : Context} {tree : ClassTree}
    (accepted : context.addClass tree = (.ok (), final)) :
    ∃ emitted, final.code = context.code ++ emitted ∧
      (∀ first ∈ emitted.head?, first.isFunction = true) ∧
      ∀ name locals block, IsBlock emitted name locals block → JumpsResolved block := by
  obtain ⟨emitted, finalCode, starts, blocks⟩ := Context.blocks_of_addClass accepted
  refine ⟨emitted, finalCode, starts, ?_⟩
  intro name locals block isBlock
  obtain ⟨_, _, _, isCode⟩ := blocks name locals block isBlock
  exact isCode.jumpsResolved

/-- The method `search` has a branch within a loop: four labels, and four jumps to them. -/
theorem search_blocks_resolve_jumps :
    ({} : Context).addClass search = (.ok (), (({} : Context).addClass search).2) ∧
      ∃ emitted, (({} : Context).addClass search).2.code = ({} : Context).code ++ emitted ∧
        (∀ first ∈ emitted.head?, first.isFunction = true) ∧
        ∀ name locals block, IsBlock emitted name locals block → JumpsResolved block := by
  have accepted :
      ({} : Context).addClass search = (.ok (), (({} : Context).addClass search).2) := rfl
  exact ⟨accepted, lowered_blocks_resolve_jumps accepted⟩

end Jack.Lowering
