import Jack.Proofs.Lowering.Instructions
import Jack.Proofs.Machine.Execution
import Jack.Proofs.Text.Numeral
import Mathlib.Data.List.Nodup

/-!
Contract: no two labels of a subroutine have the same name.

Owns: the number that a label carries, and the interval of numbers that the labels of
a statement are taken from, each one once.

Does not own: where jumps lead.

A construct takes its two numbers before the statements inside it take theirs, so the
numbers of a construct are an interval that its parts divide.
-/

set_option autoImplicit false

namespace Jack.Lowering

open Machine (Instruction labelNames)

/-! ## Numbers of labels -/

/-- The number that a label's name ends in. -/
def numberOf (name : Bytes) : Nat :=
  Numeral.valueOf (name.dropWhile fun byte => !Numeral.isDigit byte)

/-- The number can be told from the name when the stem has no digit. -/
theorem numberOf_numbered {stem : String}
    (plain : (utf8 stem).all (fun byte => !Numeral.isDigit byte) = true) (number : Nat) :
    numberOf (numbered stem number) = number := by
  have digits : (Numeral.decimal number).dropWhile (fun byte => !Numeral.isDigit byte) =
      Numeral.decimal number := by
    cases same : Numeral.decimal number with
    | nil => rfl
    | cons first rest =>
        have member : first ∈ Numeral.decimal number := by simp [same]
        simp [Numeral.isDigit_of_mem_decimal member]
  unfold numberOf numbered
  rw [List.dropWhile_append_of_pos (List.all_eq_true.mp plain), digits,
    Numeral.valueOf_decimal]

/-- The labels of code have numbers from `first` up to `last`, no two the same. -/
structure LabelsWithin (code : List Instruction) (first last : Nat) : Prop where
  ordered : first ≤ last
  within : ∀ name ∈ labelNames code, first ≤ numberOf name ∧ numberOf name < last
  distinct : ((labelNames code).map numberOf).Nodup

namespace LabelsWithin

variable {first middle last : Nat} {front back : List Instruction}

theorem of_labelNames_eq_nil {code : List Instruction} (none : labelNames code = [])
    (number : Nat) : LabelsWithin code number number :=
  ⟨Nat.le_refl _, by simp [none], by simp [none]⟩

/-- Label numbers of code in sequence come from intervals one behind the other, so no label is there
twice. -/
theorem append (left : LabelsWithin front first middle)
    (right : LabelsWithin back middle last) : LabelsWithin (front ++ back) first last where
  ordered := Nat.le_trans left.ordered right.ordered
  within := by
    have leftOrdered := left.ordered
    have rightOrdered := right.ordered
    intro name member
    rw [labelNames, List.filterMap_append, List.mem_append] at member
    rcases member with member | member
    · have := left.within name member
      omega
    · have := right.within name member
      omega
  distinct := by
    rw [labelNames, List.filterMap_append, List.map_append, List.nodup_append]
    refine ⟨left.distinct, right.distinct, ?_⟩
    simp only [List.mem_map]
    rintro _ ⟨one, inFront, rfl⟩ _ ⟨other, inBack, rfl⟩
    have := left.within one inFront
    have := right.within other inBack
    omega

/-- A construct adds the two labels of the numbers in front of those inside it. -/
theorem enclose {code inside : List Instruction} {one other : Bytes} {number : Nat}
    (within : LabelsWithin inside (number + 2) last)
    (names : (labelNames code).Perm (one :: other :: labelNames inside))
    (oneNumber : numberOf one = number) (otherNumber : numberOf other = number + 1) :
    LabelsWithin code number last where
  ordered := by
    have := within.ordered
    omega
  within := by
    have ordered := within.ordered
    intro name member
    rcases List.mem_cons.mp (names.mem_iff.mp member) with rfl | member
    · omega
    rcases List.mem_cons.mp member with rfl | member
    · omega
    · have := within.within name member
      omega
  distinct := by
    have outside : ∀ name ∈ labelNames inside, number + 2 ≤ numberOf name := fun name member =>
      (within.within name member).1
    rw [(names.map numberOf).nodup_iff]
    simp only [List.map_cons, List.nodup_cons, List.mem_cons, List.mem_map, not_or,
      not_exists, not_and, oneNumber, otherNumber]
    refine ⟨⟨by omega, ?_⟩, ?_, within.distinct⟩
    · intro name member
      have := outside name member
      omega
    · intro name member
      have := outside name member
      omega

end LabelsWithin

section Emitted

variable {setting : Setting} {label next : Nat} {code : List Instruction}

/-- Code that only computes has no labels. -/
theorem Computes.labelNames_eq_nil (computes : Computes setting label code next) :
    labelNames code = [] := by
  rw [labelNames, List.filterMap_eq_nil_iff]
  intro instruction member
  have straight := (computes.computing instruction member).isStraight
  cases instruction <;> simp_all [Instruction.isStraight, Instruction.labelName?]

theorem labelNames_append (front back : List Instruction) :
    labelNames (front ++ back) = labelNames front ++ labelNames back :=
  List.filterMap_append

theorem labelNames_label (name : Bytes) (count : Int) (rest : List Instruction) :
    labelNames (.label name count :: rest) = name :: labelNames rest :=
  rfl

theorem labelNames_cons {instruction : Instruction}
    (plain : instruction.labelName? = none) (rest : List Instruction) :
    labelNames (instruction :: rest) = labelNames rest :=
  List.filterMap_cons_none plain

private theorem labelsWithin_of_emits_letTo {target : Term} {value : Expression}
    {line : Int}
    (emitted : Emits (statement (.letTo target value line)) setting label code next ()) :
    LabelsWithin code label next := by
  rcases target_of_emits_letTo emitted with
    ⟨name, targetLine, rfl⟩ | ⟨array, index, targetLine, rfl⟩
  · obtain ⟨binding, valueCode, -, valueEmits, rfl⟩ := emits_letName_iff.mp emitted
    have computes := computes_of_emits_expression value valueEmits
    rw [computes.next_eq]
    apply LabelsWithin.of_labelNames_eq_nil
    rw [labelNames_append, computes.labelNames_eq_nil]
    rfl
  · obtain ⟨base, indexCode, middle, valueCode, -, indexEmits, valueEmits, rfl⟩ :=
      emits_letElement_iff.mp emitted
    have indexComputes := computes_of_emits_expression index indexEmits
    have valueComputes := computes_of_emits_expression value valueEmits
    rw [valueComputes.next_eq, indexComputes.next_eq]
    apply LabelsWithin.of_labelNames_eq_nil
    rw [labelNames_append, indexComputes.labelNames_eq_nil, labelNames_cons rfl,
      labelNames_cons rfl, labelNames_append, valueComputes.labelNames_eq_nil]
    rfl

mutual

/-- The labels of a statement have the numbers that lowering it took. A choice and a loop take one
for themselves, and their parts the ones behind it. -/
theorem labelsWithin_of_emits_statement : (tree : Statement) → {label next : Nat} →
    {code : List Instruction} → Emits (statement tree) setting label code next () →
    LabelsWithin code label next
  | .letTo target value line, _, _, _, emitted => labelsWithin_of_emits_letTo emitted
  | .ifElse condition whenTrue otherwise line, _, _, _, emitted => by
      obtain ⟨conditionCode, number, otherwiseCode, middle, whenTrueCode, conditionEmits,
        otherwiseEmits, whenTrueEmits, rfl⟩ := emits_ifElse_iff.mp emitted
      have computes := computes_of_emits_expression condition conditionEmits
      have inside := (labelsWithin_of_emits_alternative otherwise otherwiseEmits).append
        (labelsWithin_of_emits_statements whenTrue whenTrueEmits)
      have trueNumber : numberOf (numbered "IF_TRUE" number) = number :=
        numberOf_numbered rfl number
      have endNumber : numberOf (numbered "IF_END" (number + 1)) = number + 1 :=
        numberOf_numbered rfl (number + 1)
      rw [← computes.next_eq]
      refine inside.enclose ?_ trueNumber endNumber
      rw [labelNames_append, computes.labelNames_eq_nil, List.nil_append,
        labelNames_cons rfl, labelNames_append, labelNames_cons rfl, labelNames_label,
        labelNames_append, labelNames_label, labelNames_append]
      refine List.perm_middle.trans (.cons _ ?_)
      rw [← List.append_assoc]
      exact List.perm_append_singleton _ _
  | .whileDo condition body line, label, _, _, emitted => by
      obtain ⟨conditionCode, middle, bodyCode, conditionEmits, bodyEmits, rfl⟩ :=
        emits_whileDo_iff.mp emitted
      have computes := computes_of_emits_expression condition conditionEmits
      have inside := labelsWithin_of_emits_statements body bodyEmits
      have startNumber : numberOf (numbered "WHILE_EXP" label) = label :=
        numberOf_numbered rfl label
      have endNumber : numberOf (numbered "WHILE_END" (label + 1)) = label + 1 :=
        numberOf_numbered rfl (label + 1)
      rw [computes.next_eq] at inside
      refine inside.enclose ?_ startNumber endNumber
      rw [labelNames_label, labelNames_append, computes.labelNames_eq_nil, List.nil_append,
        labelNames_cons rfl, labelNames_cons rfl, labelNames_append, labelNames_cons rfl,
        labelNames_label]
      exact .cons _ (List.perm_append_singleton _ _)
  | .doCall called line, _, _, _, emitted => by
      obtain ⟨callCode, callEmits, rfl⟩ := emits_doCall_iff.mp emitted
      have computes := computes_of_emits_call called callEmits
      rw [computes.next_eq]
      apply LabelsWithin.of_labelNames_eq_nil
      rw [labelNames_append, computes.labelNames_eq_nil]
      rfl
  | .giveBack none line, _, _, _, emitted => by
      obtain ⟨rfl, same⟩ := emits_giveBack_none_iff.mp emitted
      rw [same]
      exact .of_labelNames_eq_nil rfl _
  | .giveBack (some value) line, _, _, _, emitted => by
      obtain ⟨valueCode, valueEmits, rfl⟩ := emits_giveBack_some_iff.mp emitted
      have computes := computes_of_emits_expression value valueEmits
      rw [computes.next_eq]
      apply LabelsWithin.of_labelNames_eq_nil
      rw [labelNames_append, computes.labelNames_eq_nil]
      rfl

theorem labelsWithin_of_emits_statements : (trees : List Statement) → {label next : Nat} →
    {code : List Instruction} → Emits (statements trees) setting label code next () →
    LabelsWithin code label next
  | [], _, _, _, emitted => by
      obtain ⟨rfl, same⟩ := emits_statements_nil_iff.mp emitted
      rw [same]
      exact .of_labelNames_eq_nil rfl _
  | first :: rest, _, _, _, emitted => by
      obtain ⟨firstCode, middle, restCode, firstEmits, restEmits, rfl⟩ :=
        emits_statements_cons_iff.mp emitted
      exact (labelsWithin_of_emits_statement first firstEmits).append
        (labelsWithin_of_emits_statements rest restEmits)

theorem labelsWithin_of_emits_alternative : (otherwise : Option (List Statement)) →
    {label next : Nat} → {code : List Instruction} →
    Emits (alternative otherwise) setting label code next () → LabelsWithin code label next
  | none, _, _, _, emitted => by
      obtain ⟨rfl, same⟩ := emits_statements_nil_iff.mp (emits_alternative_iff.mp emitted)
      rw [same]
      exact .of_labelNames_eq_nil rfl _
  | some body, _, _, _, emitted =>
      labelsWithin_of_emits_statements body (emits_alternative_iff.mp emitted)

end

end Emitted

end Jack.Lowering
