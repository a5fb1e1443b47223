import Jack.Proofs.Grammar.Sources
import Jack.Proofs.Lowering.Settings
import Jack.Proofs.Machine.Listing
import Jack.Machine.Bundle
import Jack.Project.Build

/-!
Contract: lowered code reads back from its listing, which is all of ASCII.

Owns: why each instruction that is emitted for a well-formed tree can be written and read.
Names are identifiers, labels and the fixed functions, joined by dots; indexes and counts
are not larger than the tree is long.

Does not own: how a listing is read.

How long a tree may be is left open up to the end, where it is no longer than its source.
-/

set_option autoImplicit false

namespace Jack

open Machine (Instruction Segment IsPlainWord isPlain isPlain_iff)

/-! ## Names -/

theorem isPlain_of_continuesWord {byte : UInt8} (inWord : Alphabet.continuesWord byte = true) :
    isPlain byte = true := by
  rw [isPlain_iff]
  simp only [Alphabet.continuesWord, Alphabet.isLetter, Alphabet.isUnderscore, Alphabet.isDigit,
    Numeral.isDigit, Bool.or_eq_true, Bool.and_eq_true, decide_eq_true_eq, beq_iff_eq,
    UInt8.le_iff_toNat_le, ← UInt8.toNat_inj] at inWord
  change (((97 ≤ byte.toNat ∧ byte.toNat ≤ 122) ∨ (65 ≤ byte.toNat ∧ byte.toNat ≤ 90)) ∨
    byte.toNat = 95) ∨ (48 ≤ byte.toNat ∧ byte.toNat ≤ 57) at inWord
  omega

/-- Names of the language hold letters, digits and underscores only. -/
theorem isPlainWord_of_isIdentifier {word : Bytes} (named : isIdentifier word = true) :
    IsPlainWord word := by
  cases word with
  | nil => cases named
  | cons first rest =>
      simp only [isIdentifier, Bool.and_eq_true, List.all_eq_true] at named
      obtain ⟨⟨starts, goesOn⟩, -⟩ := named
      refine ⟨List.cons_ne_nil _ _, List.all_eq_true.mpr (List.forall_mem_cons.mpr ⟨?_, ?_⟩)⟩
      · apply isPlain_of_continuesWord
        rw [Alphabet.continuesWord, ← Alphabet.startsWord, starts, Bool.true_or]
      · exact fun byte member => isPlain_of_continuesWord (goesOn byte member)

theorem isPlainWord_of_isType {reserved : List String} {type : Bytes}
    (plain : ∀ literal ∈ reserved, IsPlainWord (utf8 literal))
    (isType : isType reserved type = true) : IsPlainWord type := by
  rcases Bool.or_eq_true_iff.mp isType with among | named
  · obtain ⟨literal, member, rfl⟩ := isAmong_iff.mp among
    exact plain literal member
  · exact isPlainWord_of_isIdentifier named

theorem Machine.IsPlainWord.append {front back : Bytes} (frontPlain : IsPlainWord front)
    (backPlain : back.all isPlain = true) : IsPlainWord (front ++ back) :=
  ⟨by simp [frontPlain.nonempty], by rw [List.all_append, frontPlain.allPlain, backPlain]; rfl⟩

namespace Lowering

theorem isPlainWord_qualified {className name : Bytes} (ofClass : IsPlainWord className)
    (ofName : IsPlainWord name) : IsPlainWord (qualified className name) := by
  have dot : (utf8 ".").all isPlain = true := by decide
  exact (ofClass.append dot).append ofName.allPlain

/-- A label is plain, since its number is written in digits. -/
theorem isPlainWord_numbered {stem : Bytes} (plain : IsPlainWord stem) (number : Nat) :
    IsPlainWord (stem ++ Numeral.decimal number) :=
  plain.append (List.all_eq_true.mpr fun _ member =>
    Machine.isPlain_of_isDigit (Numeral.isDigit_of_mem_decimal member))

/-! ## Steps -/

/-- All instructions that a step emits read back, with plain names. -/
def Readable {Value : Type} (step : Emit Value) (setting : Setting) : Prop :=
  ∀ ⦃label code next value⦄, Emits step setting label code next value →
    ∀ instruction ∈ code, instruction.IsPlain

/-- A setting in which names are plain, with indexes up to a limit that a machine word
holds. -/
structure Setting.Legible (setting : Setting) (limit : Nat) : Prop where
  inWord : Numeral.InWord limit
  className : IsPlainWord setting.className
  bindings : ∀ {name binding}, setting.bindings.resolve? name = some binding →
    binding.index ≤ limit ∧ IsPlainWord binding.type

section Steps

variable {Value Other : Type} {step : Emit Value} {rest : Value → Emit Other}
  {setting : Setting} {line : Int}

theorem Readable.bind (first : Readable step setting)
    (second : ∀ {label code next value}, Emits step setting label code next value →
      Readable (rest value) setting) :
    Readable (step >>= rest) setting := by
  intro label code next result emitted
  obtain ⟨value, front, middle, back, emitsFirst, emitsRest, rfl⟩ := emits_bind_iff.mp emitted
  exact List.forall_mem_append.mpr ⟨first emitsFirst, second emitsFirst emitsRest⟩

/-- A step without code has nothing to read. -/
theorem readable_of_no_code
    (silent : ∀ {label code next value}, Emits step setting label code next value → code = []) :
    Readable step setting := by
  intro label code next value emitted
  rw [silent emitted]
  exact List.forall_mem_nil _

theorem readable_pure (value : Value) : Readable (pure value) setting :=
  readable_of_no_code fun emitted => (emits_pure_iff.mp emitted).1

theorem readable_fail (fault : CodegenFault) :
    Readable (Emit.fail fault line : Emit Value) setting :=
  readable_of_no_code fun emitted => absurd emitted not_emits_fail

theorem readable_labels (first second : Bytes) :
    Readable (Emit.labels first second) setting :=
  readable_of_no_code fun emitted => (emits_labels_iff.mp emitted).1

theorem readable_resolve (name : Bytes) : Readable (Emit.resolve name line) setting :=
  readable_of_no_code fun emitted => (emits_resolve_iff.mp emitted).2.1

theorem readable_append {code : List Instruction}
    (plain : ∀ instruction ∈ code, instruction.IsPlain) :
    Readable (Emit.append code) setting := by
  intro label emittedCode next done emitted
  rwa [(emits_append_iff.mp emitted).1]

/-- What is checked has no flaw. -/
theorem readable_checked {instruction : Instruction}
    (writable : instruction.flaw? = none → instruction.IsWritable)
    (named : ∀ name ∈ instruction.name?, IsPlainWord name) :
    Readable (Emit.checked instruction line) setting := by
  intro label code next done emitted
  obtain ⟨sound, rfl, -⟩ := emits_checked_iff.mp emitted
  exact List.forall_mem_singleton.mpr ⟨⟨writable sound, sound⟩, named⟩

theorem readable_push {segment : Segment} {index : Int} (inWord : Numeral.InWord index) :
    Readable (Emit.push segment index line) setting :=
  readable_checked (fun _ => inWord) (by simp [Instruction.name?])

theorem readable_pop {segment : Segment} {index : Int} (inWord : Numeral.InWord index) :
    Readable (Emit.pop segment index line) setting :=
  readable_checked (fun _ => inWord) (by simp [Instruction.name?])

/-- A constant outside of its range is refused, so nothing has to be assumed about it. -/
theorem readable_push_constant (value : Int) :
    Readable (Emit.push .constant value line) setting := by
  refine readable_checked (fun sound => ?_) (by simp [Instruction.name?])
  obtain ⟨natural, small⟩ := push_constant_flaw?_eq_none_iff.mp sound
  simp only [Machine.maxConstant] at small
  simp only [Instruction.IsWritable, Numeral.InWord]
  omega

variable {limit : Nat} {binding : Binding} {name : Bytes}

/-- A count that is no larger than the source fits into a word if the length of the source does. -/
theorem Setting.Legible.inWord_of_le (legible : setting.Legible limit) {count : Nat}
    (bounded : count ≤ limit) : Numeral.InWord count := by
  have inWord := legible.inWord
  simp only [Numeral.InWord] at inWord ⊢
  omega

/-- In a legible setting slots are within the limit, so an access to a variable reads back. -/
theorem Setting.Legible.readable_pushBinding (legible : setting.Legible limit)
    (bound : setting.bindings.resolve? name = some binding) :
    Readable (Emit.pushBinding binding line) setting :=
  readable_push (legible.inWord_of_le (legible.bindings bound).1)

theorem Setting.Legible.readable_popBinding (legible : setting.Legible limit)
    (bound : setting.bindings.resolve? name = some binding) :
    Readable (Emit.popBinding binding line) setting :=
  readable_pop (legible.inWord_of_le (legible.bindings bound).1)

/-- A call of a function with a plain name. -/
theorem isPlain_call {target : Bytes} {count : Nat} (plain : IsPlainWord target)
    (inWord : Numeral.InWord count) : (Instruction.call target count).IsPlain := by
  have readsBack : (Instruction.call target count).ReadsBack :=
    ⟨⟨plain.isWord, inWord⟩, nameFlaw?_eq_none plain.nonempty (Int.natCast_nonneg count)⟩
  exact readsBack.isPlain_of_named rfl plain

end Steps

/-! ## Trees -/

section Terms

variable {setting : Setting} {line : Int} {limit : Nat}

theorem readable_string (value : Bytes) : Readable (string value line) setting := by
  have new : (Instruction.call (utf8 "String.new") (1 : Nat)).IsPlain :=
    isPlain_call ⟨by decide, by decide⟩ (by decide)
  have appendChar : (Instruction.call (utf8 "String.appendChar") (2 : Nat)).IsPlain :=
    isPlain_call ⟨by decide, by decide⟩ (by decide)
  have pushed (byte : UInt8) : (Instruction.push .constant byte.toNat).IsPlain := by
    have small := byte.toNat_lt
    refine Instruction.ReadsBack.isPlain_of_unnamed ⟨?_, push_constant_flaw?_eq_none_iff.mpr ?_⟩ rfl
    · simp only [Instruction.IsWritable, Numeral.InWord]
      omega
    · simp only [Machine.maxConstant]
      omega
  refine (readable_push_constant _).bind fun _ => ?_
  refine (readable_append (List.forall_mem_singleton.mpr new)).bind fun _ => ?_
  refine readable_append fun instruction member => ?_
  simp only [List.mem_flatMap, List.mem_cons, List.not_mem_nil, or_false] at member
  rcases member with ⟨byte, -, rfl | rfl⟩
  · exact pushed byte
  · exact appendChar

theorem isPlain_arithmetic (operation : Machine.Operation) :
    (Instruction.arithmetic operation).IsPlain :=
  Instruction.ReadsBack.isPlain_of_unnamed ⟨trivial, rfl⟩ rfl

theorem readable_arithmetic (operation : Machine.Operation) :
    Readable (Emit.append [.arithmetic operation]) setting :=
  readable_append (List.forall_mem_singleton.mpr (isPlain_arithmetic operation))

theorem readable_keyword (word : Bytes) : Readable (keyword word line) setting := by
  unfold keyword
  split_ifs
  · exact (readable_push_constant 0).bind fun _ => readable_arithmetic .not
  · exact readable_push_constant 0
  · exact readable_push (by decide)
  · exact readable_fail _

theorem readable_unary (operator : Operator) : Readable (unary operator) setting := by
  unfold unary
  split_ifs
  · exact readable_arithmetic .neg
  · exact readable_arithmetic .not
  · exact readable_fail _

theorem BinaryCode.isPlain {symbol : Bytes} {instruction : Instruction}
    (code : BinaryCode symbol instruction) : instruction.IsPlain := by
  have isPlain {target : Bytes} (plain : IsPlainWord target) :
      (Instruction.call target (2 : Nat)).IsPlain := isPlain_call plain (by decide)
  cases code with
  | product | quotient => exact isPlain ⟨by decide, by decide⟩
  | _ => exact isPlain_arithmetic _

theorem readable_binary (operator : Operator) : Readable (binary operator) setting := by
  unfold binary
  cases known : binaryInstruction? operator.symbol with
  | none => exact readable_fail _
  | some instruction =>
      have code := binaryCode_of_known known
      exact readable_append (List.forall_mem_singleton.mpr code.isPlain)

theorem Setting.Legible.readable_elementAddress (legible : setting.Legible limit)
    {array : Bytes} {index : Emit Unit} (indexReads : Readable index setting) :
    Readable (elementAddress array index line) setting := by
  refine (readable_resolve array).bind fun resolved => indexReads.bind fun _ => ?_
  refine (legible.readable_pushBinding (emits_resolve_iff.mp resolved).1).bind fun _ => ?_
  exact readable_arithmetic .add

/-- At most one value is pushed for a receiver, and the name of the function is plain. -/
theorem Setting.Legible.receives (legible : setting.Legible limit) {qualifier : Option Bytes}
    {name target : Bytes} {code : List Instruction}
    (receives : Receives setting name qualifier code target)
    (qualifierNamed : qualifier.all isIdentifier = true) (named : isIdentifier name = true) :
    (∀ instruction ∈ code, instruction.IsPlain) ∧ code.length ≤ 1 ∧ IsPlainWord target := by
  have plain := isPlainWord_of_isIdentifier named
  cases receives with
  | ownMethod =>
      refine ⟨?_, by simp, isPlainWord_qualified legible.className plain⟩
      have readsBack : (Instruction.push .pointer 0).ReadsBack :=
        ⟨show Numeral.InWord 0 by decide, by decide⟩
      exact List.forall_mem_singleton.mpr (readsBack.isPlain_of_unnamed rfl)
  | ownFunction => exact ⟨by simp, by simp, isPlainWord_qualified legible.className plain⟩
  | ofClass =>
      have qualifierPlain := isPlainWord_of_isIdentifier (by simpa using qualifierNamed)
      exact ⟨by simp, by simp, isPlainWord_qualified qualifierPlain plain⟩
  | @ofVariable _ binding bound =>
      obtain ⟨bounded, typePlain⟩ := legible.bindings bound
      refine ⟨List.forall_mem_singleton.mpr ?_, by simp, isPlainWord_qualified typePlain plain⟩
      refine Instruction.ReadsBack.isPlain_of_unnamed ⟨legible.inWord_of_le bounded, ?_⟩ rfl
      cases storage : binding.storage <;>
        simp [Storage.segment, Instruction.flaw?, Instruction.indexFlaw?]

end Terms

section Trees

variable {setting : Setting} {limit : Nat}

mutual

/-- A term is no longer than the source, which bounds the counts of its calls. -/
theorem readable_term (legible : setting.Legible limit) : (tree : Term) →
    tree.wellFormed = true → tree.spelling.length ≤ limit → Readable (term tree) setting
  | .integer value line, _, _ => by
      rw [term]
      exact readable_push_constant value
  | .string value line, _, _ => by
      rw [term]
      exact readable_string value
  | .keyword word line, _, _ => by
      rw [term]
      exact readable_keyword word
  | .name name line, _, _ => by
      rw [term]
      exact (readable_resolve name).bind fun resolved =>
        legible.readable_pushBinding (emits_resolve_iff.mp resolved).1
  | .element array index line, wellFormed, short => by
      simp only [Term.wellFormed, Bool.and_eq_true] at wellFormed
      simp only [Term.spelling, List.length_cons, List.length_append] at short
      have indexReads := readable_expression legible index wellFormed.2 (by omega)
      rw [term]
      refine (legible.readable_elementAddress indexReads).bind fun _ => ?_
      exact (readable_pop (by decide)).bind fun _ => readable_push (by decide)
  | .call called, wellFormed, short => by
      rw [Term.wellFormed] at wellFormed
      rw [Term.spelling] at short
      rw [term]
      exact readable_call legible called wellFormed short
  | .group inner line, wellFormed, short => by
      rw [Term.wellFormed] at wellFormed
      simp only [Term.spelling, List.length_cons, List.length_append] at short
      rw [term]
      exact readable_expression legible inner wellFormed (by omega)
  | .unary operator operand line, wellFormed, short => by
      simp only [Term.wellFormed, Bool.and_eq_true] at wellFormed
      simp only [Term.spelling, List.length_cons] at short
      rw [term]
      exact (readable_term legible operand wellFormed.2 (by omega)).bind fun _ =>
        readable_unary operator

theorem readable_expression (legible : setting.Legible limit) : (tree : Expression) →
    tree.wellFormed = true → tree.spelling.length ≤ limit → Readable (expression tree) setting
  | .mk head tail, wellFormed, short => by
      simp only [Expression.wellFormed, Bool.and_eq_true] at wellFormed
      simp only [Expression.spelling, List.length_append] at short
      rw [expression]
      exact (readable_term legible head wellFormed.1 (by omega)).bind fun _ =>
        readable_operations legible tail wellFormed.2 (by omega)

theorem readable_operations (legible : setting.Legible limit) : (tail : List (Operator × Term)) →
    Expression.tailWellFormed tail = true → (Expression.tailSpelling tail).length ≤ limit →
    Readable (operations tail) setting
  | [], _, _ => by
      rw [operations]
      exact readable_pure ()
  | (operator, operand) :: rest, wellFormed, short => by
      simp only [Expression.tailWellFormed, Bool.and_eq_true] at wellFormed
      simp only [Expression.tailSpelling, List.length_cons, List.length_append] at short
      rw [operations]
      refine (readable_term legible operand wellFormed.1.2 (by omega)).bind fun _ => ?_
      exact (readable_binary operator).bind fun _ =>
        readable_operations legible rest wellFormed.2 (by omega)

theorem readable_call (legible : setting.Legible limit) : (tree : Call) →
    tree.wellFormed = true → tree.spelling.length ≤ limit → Readable (call tree) setting
  | .mk qualifier name arguments line, wellFormed, short => by
      simp only [Call.wellFormed, Bool.and_eq_true] at wellFormed
      -- The name and the brackets leave room for the receiver and the missing comma.
      have argumentsShort : (separated (Expression.spellings arguments)).length + 3 ≤ limit := by
        cases qualifier <;>
          simp only [Call.spelling, List.length_cons, List.length_append, List.length_nil]
            at short <;>
          omega
      have counted : arguments.length ≤
          (separated (Expression.spellings arguments)).length + 1 := by
        have commas := length_le_separated (Expression.spellings arguments)
        rwa [Expression.spellings_eq_map, List.length_map, ← Expression.spellings_eq_map] at commas
      rw [call]
      refine Readable.bind (fun _ _ _ _ emitted => ?_) fun emitted => ?_
      · obtain ⟨receives, -, -⟩ := emits_receiver_iff.mp emitted
        exact (legible.receives receives wellFormed.1.1 wellFormed.1.2).1
      · obtain ⟨receives, received, -⟩ := emits_receiver_iff.mp emitted
        obtain ⟨-, few, plain⟩ := legible.receives receives wellFormed.1.1 wellFormed.1.2
        refine (readable_expressions legible arguments wellFormed.2 (by omega)).bind fun _ => ?_
        refine readable_append (List.forall_mem_singleton.mpr ?_)
        exact isPlain_call plain (legible.inWord_of_le (by omega))

theorem readable_expressions (legible : setting.Legible limit) : (trees : List Expression) →
    Expression.allWellFormed trees = true →
    (separated (Expression.spellings trees)).length ≤ limit →
    Readable (expressions trees) setting
  | [], _, _ => by
      rw [expressions]
      exact readable_pure ()
  | first :: rest, wellFormed, short => by
      simp only [Expression.allWellFormed, Bool.and_eq_true] at wellFormed
      rw [Expression.spellings] at short
      obtain ⟨firstLe, restLe⟩ :=
        length_le_separated_cons first.spelling (Expression.spellings rest)
      rw [expressions]
      exact (readable_expression legible first wellFormed.1 (by omega)).bind fun _ =>
        readable_expressions legible rest wellFormed.2 (by omega)

end

theorem readable_assignment (legible : setting.Legible limit) {target : Term}
    {value : Expression} {line : Int} (targetFormed : target.wellFormed = true)
    (valueFormed : value.wellFormed = true) (targetShort : target.spelling.length ≤ limit)
    (valueShort : value.spelling.length ≤ limit) :
    Readable (assignment target value line) setting := by
  have valueReads := readable_expression legible value valueFormed valueShort
  cases target with
  | name name targetLine =>
      exact (readable_resolve name).bind fun resolved => valueReads.bind fun _ =>
        legible.readable_popBinding (emits_resolve_iff.mp resolved).1
  | element array index targetLine =>
      simp only [Term.wellFormed, Bool.and_eq_true] at targetFormed
      simp only [Term.spelling, List.length_cons, List.length_append] at targetShort
      have indexReads := readable_expression legible index targetFormed.2 (by omega)
      refine (legible.readable_elementAddress indexReads).bind fun _ => ?_
      refine valueReads.bind fun _ => (readable_pop (by decide)).bind fun _ => ?_
      refine (readable_pop (by decide)).bind fun _ => ?_
      exact (readable_push (by decide)).bind fun _ => readable_pop (by decide)
  | integer | string | keyword | call | group | unary => exact readable_fail _

/-- Labels and the jumps to them. -/
theorem isPlain_labelled {stem : Bytes} (plain : IsPlainWord stem) (number : Nat) :
    (Instruction.label (stem ++ Numeral.decimal number)).IsPlain ∧
      (Instruction.goto (stem ++ Numeral.decimal number)).IsPlain ∧
      (Instruction.ifGoto (stem ++ Numeral.decimal number)).IsPlain := by
  have named := isPlainWord_numbered plain number
  have sound := nameFlaw?_eq_none named.nonempty (Int.le_refl 0)
  have isPlain {instruction : Instruction} (readsBack : instruction.ReadsBack)
      (isName : instruction.name? = some (stem ++ Numeral.decimal number)) : instruction.IsPlain :=
    readsBack.isPlain_of_named isName named
  exact ⟨isPlain ⟨⟨named.isWord, rfl⟩, sound⟩ rfl, isPlain ⟨⟨named.isWord, rfl⟩, sound⟩ rfl,
    isPlain ⟨⟨named.isWord, rfl⟩, sound⟩ rfl⟩

theorem isPlainWord_ifTrue : IsPlainWord (utf8 "IF_TRUE") := ⟨by decide, by decide⟩

theorem isPlainWord_ifEnd : IsPlainWord (utf8 "IF_END") := ⟨by decide, by decide⟩

theorem isPlainWord_whileStart : IsPlainWord (utf8 "WHILE_EXP") := ⟨by decide, by decide⟩

theorem isPlainWord_whileEnd : IsPlainWord (utf8 "WHILE_END") := ⟨by decide, by decide⟩

theorem readable_ret : Readable (Emit.append [.ret]) setting :=
  readable_append (List.forall_mem_singleton.mpr
    (Instruction.ReadsBack.isPlain_of_unnamed ⟨trivial, rfl⟩ rfl))

mutual

theorem readable_statement (legible : setting.Legible limit) : (tree : Statement) →
    tree.wellFormed = true → tree.spelling.length ≤ limit → Readable (statement tree) setting
  | .letTo target value line, wellFormed, short => by
      simp only [Statement.wellFormed, Bool.and_eq_true] at wellFormed
      simp only [Statement.spelling, List.length_cons, List.length_append] at short
      rw [statement]
      exact readable_assignment legible wellFormed.1.2 wellFormed.2 (by omega) (by omega)
  | .ifElse condition whenTrue otherwise line, wellFormed, short => by
      simp only [Statement.wellFormed, Bool.and_eq_true] at wellFormed
      simp only [Statement.spelling, List.length_cons, List.length_append] at short
      have conditionReads := readable_expression legible condition wellFormed.1.1.1 (by omega)
      have elseReads := readable_alternative legible otherwise wellFormed.2 (by omega)
      have trueReads := readable_statements legible whenTrue wellFormed.1.2 (by omega)
      rw [statement]
      refine conditionReads.bind fun _ => (readable_labels _ _).bind fun labelled => ?_
      obtain ⟨-, -, rfl⟩ := emits_labels_iff.mp labelled
      have atTrue := isPlain_labelled isPlainWord_ifTrue
      have atEnd := isPlain_labelled isPlainWord_ifEnd
      refine (readable_append (by simp [atTrue])).bind fun _ => elseReads.bind fun _ => ?_
      refine (readable_append (by simp [atTrue, atEnd])).bind fun _ => ?_
      exact trueReads.bind fun _ => readable_append (by simp [atEnd])
  | .whileDo condition body line, wellFormed, short => by
      simp only [Statement.wellFormed, Bool.and_eq_true] at wellFormed
      simp only [Statement.spelling, List.length_cons, List.length_append] at short
      have conditionReads := readable_expression legible condition wellFormed.1.1 (by omega)
      have bodyReads := readable_statements legible body wellFormed.2 (by omega)
      rw [statement]
      refine (readable_labels _ _).bind fun labelled => ?_
      obtain ⟨-, -, rfl⟩ := emits_labels_iff.mp labelled
      have atStart := isPlain_labelled isPlainWord_whileStart
      have atEnd := isPlain_labelled isPlainWord_whileEnd
      refine (readable_append (by simp [atStart])).bind fun _ => conditionReads.bind fun _ => ?_
      refine (readable_append (by simp [atEnd, isPlain_arithmetic])).bind fun _ => ?_
      exact bodyReads.bind fun _ => readable_append (by simp [atStart, atEnd])
  | .doCall called line, wellFormed, short => by
      rw [Statement.wellFormed] at wellFormed
      simp only [Statement.spelling, List.length_cons, List.length_append] at short
      rw [statement]
      exact (readable_call legible called wellFormed (by omega)).bind fun _ =>
        readable_pop (by decide)
  | .giveBack none line, _, _ => by
      rw [statement]
      exact (readable_push_constant 0).bind fun _ => readable_ret
  | .giveBack (some value) line, wellFormed, short => by
      simp only [Statement.wellFormed, Option.all_some] at wellFormed
      simp only [Statement.spelling, List.length_cons, List.length_append] at short
      rw [statement]
      exact (readable_expression legible value wellFormed (by omega)).bind fun _ => readable_ret

theorem readable_statements (legible : setting.Legible limit) : (trees : List Statement) →
    Statement.allWellFormed trees = true → (Statement.allSpelling trees).length ≤ limit →
    Readable (statements trees) setting
  | [], _, _ => by
      rw [statements]
      exact readable_pure ()
  | first :: rest, wellFormed, short => by
      simp only [Statement.allWellFormed, Bool.and_eq_true] at wellFormed
      simp only [Statement.allSpelling, List.length_append] at short
      rw [statements]
      exact (readable_statement legible first wellFormed.1 (by omega)).bind fun _ =>
        readable_statements legible rest wellFormed.2 (by omega)

theorem readable_alternative (legible : setting.Legible limit) :
    (otherwise : Option (List Statement)) → Statement.elseWellFormed otherwise = true →
    (Statement.elseSpelling otherwise).length ≤ limit → Readable (alternative otherwise) setting
  | none, _, _ => by
      rw [alternative]
      exact readable_pure ()
  | some body, wellFormed, short => by
      simp only [Statement.elseWellFormed, Bool.and_eq_true] at wellFormed
      simp only [Statement.elseSpelling, List.length_cons, List.length_append] at short
      rw [alternative]
      exact readable_statements legible body wellFormed.2 (by omega)

end

theorem readable_prologue (kind : SubroutineKind) (line : Int) :
    Readable (prologue kind line) setting := by
  have alloc : (Instruction.call (utf8 "Memory.alloc") (1 : Nat)).IsPlain :=
    isPlain_call ⟨by decide, by decide⟩ (by decide)
  cases kind with
  | constructor =>
      refine (readable_of_no_code fun emitted => (emits_setting_iff.mp emitted).1).bind
        fun _ => (readable_push_constant _).bind fun _ => ?_
      exact (readable_append (List.forall_mem_singleton.mpr alloc)).bind fun _ =>
        readable_pop (by decide)
  | method => exact (readable_push (by decide)).bind fun _ => readable_pop (by decide)
  | function => exact readable_pure ()

/-- A subroutine reads back if its counts do: its locals, and what its statements count. -/
theorem readable_subroutine (legible : setting.Legible limit) {tree : Subroutine}
    (wellFormed : tree.wellFormed = true) (short : tree.spelling.length ≤ limit)
    (few : localCount tree.body ≤ limit) : Readable (subroutine tree) setting := by
  simp only [Subroutine.wellFormed, SubroutineBody.wellFormed, Bool.and_eq_true] at wellFormed
  simp only [Subroutine.spelling, SubroutineBody.spelling, List.length_cons,
    List.length_append] at short
  have named := isPlainWord_qualified legible.className
    (isPlainWord_of_isIdentifier wellFormed.1.1.2)
  refine (readable_of_no_code fun emitted => (emits_setting_iff.mp emitted).1).bind
    fun emitted => ?_
  rw [(emits_setting_iff.mp emitted).2.2]
  have function : (Instruction.function (qualified setting.className tree.name)
      (localCount tree.body)).IsWritable := ⟨named.isWord, legible.inWord_of_le few⟩
  refine (readable_checked (fun _ => function) (by simpa [Instruction.name?] using named)).bind
    fun _ => ?_
  exact (readable_prologue tree.kind tree.line).bind fun _ =>
    readable_statements legible tree.body.statements wellFormed.2.2 (by omega)

end Trees

end Lowering

/-! ## Limits -/

theorem length_flatMap_le {Item Front Back : Type} {front : Item → List Front}
    {back : Item → List Back} {items : List Item}
    (each : ∀ item ∈ items, (front item).length ≤ (back item).length) :
    (items.flatMap front).length ≤ (items.flatMap back).length := by
  induction items with
  | nil => exact Nat.le_refl 0
  | cons first rest inductionHypothesis =>
      obtain ⟨firstLe, restLe⟩ := List.forall_mem_cons.mp each
      rw [List.flatMap_cons, List.flatMap_cons, List.length_append, List.length_append]
      exact Nat.add_le_add firstLe (inductionHypothesis restLe)

/-- Every name that is declared is spelled. -/
theorem VariableList.length_names_le (list : VariableList) :
    list.names.length ≤ list.spelling.length := by
  have commas := length_le_separated (list.names.map fun name => [Piece.name name])
  rw [List.length_map] at commas
  simp only [spelling, List.length_cons, List.length_append, List.length_nil]
  omega

theorem localCount_le (tree : Subroutine) :
    Lowering.localCount tree.body ≤
      (tree.body.locals.flatMap fun list => Piece.keyword "var" :: list.spelling).length := by
  refine length_flatMap_le fun list _ => ?_
  have names := list.length_names_le
  rw [List.length_cons]
  omega

/-- A class declares no more variables than it has tokens. -/
theorem ClassTree.length_declared_le (tree : ClassTree) :
    tree.declared.length ≤ tree.spelling.length := by
  have counted : tree.declared.length ≤
      (tree.declarations.flatMap ClassVariables.spelling).length := by
    refine length_flatMap_le fun declaration _ => ?_
    have names := declaration.list.length_names_le
    rw [VariableList.declarations, List.length_map, ClassVariables.spelling, List.length_cons]
    omega
  simp only [spelling, List.length_cons, List.length_append]
  omega

/-- So does a subroutine, with its receiver counted for the keyword in front. -/
theorem Subroutine.length_declared_le (tree : Subroutine) (className : Bytes) :
    (tree.declared className).length ≤ tree.spelling.length := by
  have receiver : (tree.kind.receiver className).length ≤ 1 := by
    cases tree.kind <;> simp [SubroutineKind.receiver]
  have parameters := length_le_separated (tree.parameters.map Parameter.spelling)
  have locals : (tree.body.locals.flatMap (VariableList.declarations .local)).length ≤
      (tree.body.locals.flatMap fun list => Piece.keyword "var" :: list.spelling).length := by
    refine length_flatMap_le fun list _ => ?_
    have names := list.length_names_le
    rw [VariableList.declarations, List.length_map, List.length_cons]
    omega
  rw [List.length_map] at parameters
  simp only [declared, ownDeclared, spelling, SubroutineBody.spelling, List.length_append,
    List.length_map, List.length_cons]
  omega

/-- A binding has an index below the count of all declarations, and the type of one of
them. -/
theorem Scope.of_find?_ofDeclarations {declarations : List Declaration} {name : Bytes}
    {binding : Binding} (found : (ofDeclarations declarations).find? name = some binding) :
    binding.index ≤ declarations.length ∧
      ∃ declaration ∈ declarations, binding.type = declaration.type := by
  obtain ⟨front, declaration, back, rfl, -, -, rfl⟩ := find?_ofDeclarations_eq_some_iff.mp found
  refine ⟨?_, declaration, by simp, rfl⟩
  have counted : Declaration.tallied declaration.storage front ≤ front.length :=
    Declaration.tallied_le_length
  simp only [List.length_append]
  omega

/-! ## Compiled classes -/

theorem isPlainWord_of_variableTypes {type : Bytes} (isType : isType variableTypes type = true) :
    IsPlainWord type := by
  refine isPlainWord_of_isType ?_ isType
  simp only [variableTypes, List.forall_mem_cons]
  exact ⟨⟨by decide, by decide⟩, ⟨by decide, by decide⟩, ⟨by decide, by decide⟩,
    List.forall_mem_nil _⟩

namespace ClassTree.ReadFrom

variable {tree : ClassTree} {length : Nat} {subroutine : Subroutine}

theorem name_isPlainWord (readFrom : tree.ReadFrom length) : IsPlainWord tree.name := by
  have wellFormed := readFrom.wellFormed
  simp only [ClassTree.wellFormed, Bool.and_eq_true] at wellFormed
  exact isPlainWord_of_isIdentifier wellFormed.1.1

theorem subroutine_short (readFrom : tree.ReadFrom length)
    (member : subroutine ∈ tree.subroutines) : subroutine.spelling.length ≤ length := by
  have within : subroutine.spelling.length ≤
      (tree.subroutines.flatMap Subroutine.spelling).length := by
    rw [List.flatMap_def]
    exact (List.sublist_flatten_of_mem (List.mem_map_of_mem member)).length_le
  have short := readFrom.short
  simp only [ClassTree.spelling, List.length_cons, List.length_append] at short
  omega

/-- The types of class variables are plain. -/
theorem type_of_mem_declared (readFrom : tree.ReadFrom length) {declaration : Declaration}
    (member : declaration ∈ tree.declared) : IsPlainWord declaration.type := by
  have wellFormed := readFrom.wellFormed
  simp only [ClassTree.wellFormed, VariableList.wellFormed, Bool.and_eq_true, List.all_eq_true]
    at wellFormed
  obtain ⟨classVariables, inTree, inList⟩ := List.mem_flatMap.mp member
  obtain ⟨name, -, rfl⟩ := List.mem_map.mp inList
  exact isPlainWord_of_variableTypes (wellFormed.1.2 classVariables inTree).1.1

/-- The types of parameters and locals are plain, and so is that of the receiver. -/
theorem type_of_mem_subroutineDeclared (readFrom : tree.ReadFrom length)
    (inClass : subroutine ∈ tree.subroutines) {declaration : Declaration}
    (member : declaration ∈ subroutine.declared tree.name) : IsPlainWord declaration.type := by
  have wellFormed := readFrom.subroutine_wellFormed inClass
  simp only [Subroutine.wellFormed, SubroutineBody.wellFormed, Parameter.wellFormed,
    VariableList.wellFormed, Bool.and_eq_true, List.all_eq_true] at wellFormed
  simp only [Subroutine.declared, Subroutine.ownDeclared, List.mem_append, List.mem_map,
    List.mem_flatMap] at member
  rcases member with ofReceiver | ⟨parameter, inList, rfl⟩ | ⟨list, inBody, inList⟩
  · cases kind : subroutine.kind with
    | method =>
        rw [kind, SubroutineKind.receiver, List.mem_singleton] at ofReceiver
        rw [ofReceiver]
        exact readFrom.name_isPlainWord
    | constructor | function => simp [kind, SubroutineKind.receiver] at ofReceiver
  · exact isPlainWord_of_variableTypes (wellFormed.1.2 parameter inList).1
  · obtain ⟨name, -, rfl⟩ := List.mem_map.mp inList
    exact isPlainWord_of_variableTypes (wellFormed.2.1 list inBody).1.1

/-- What names stand for in a class is legible. -/
theorem legible (readFrom : tree.ReadFrom length) (inWord : Numeral.InWord length)
    (member : subroutine ∈ tree.subroutines) : (tree.setting subroutine).Legible length where
  inWord := inWord
  className := readFrom.name_isPlainWord
  bindings := by
    intro name binding bound
    have classShort := tree.length_declared_le.trans readFrom.short
    have subroutineShort :=
      (subroutine.length_declared_le tree.name).trans (readFrom.subroutine_short member)
    rcases Option.or_eq_some_iff.mp bound with inSubroutine | ⟨-, inClass⟩
    · obtain ⟨bounded, declaration, declared, type⟩ :=
        Scope.of_find?_ofDeclarations inSubroutine
      rw [type]
      exact ⟨bounded.trans subroutineShort,
        readFrom.type_of_mem_subroutineDeclared member declared⟩
    · obtain ⟨bounded, declaration, declared, type⟩ := Scope.of_find?_ofDeclarations inClass
      rw [type]
      exact ⟨bounded.trans classShort, readFrom.type_of_mem_declared declared⟩

/-- All code of a class that is lowered reads back, with plain names. -/
theorem isPlain_code (readFrom : tree.ReadFrom length) (inWord : Numeral.InWord length)
    {compiled : CompiledClass} (lowered : lowerClass tree = .ok compiled) :
    ∀ instruction ∈ compiled.code, instruction.IsPlain := by
  obtain ⟨accepted, rfl⟩ := lowerClass_eq_ok_iff.mp lowered
  intro instruction member
  obtain ⟨subroutine, inClass, inCode⟩ := List.mem_flatMap.mp member
  have short := readFrom.subroutine_short inClass
  have few : Lowering.localCount subroutine.body ≤ length := by
    have counted := localCount_le subroutine
    simp only [Subroutine.spelling, SubroutineBody.spelling, List.length_cons,
      List.length_append] at short
    omega
  exact Lowering.readable_subroutine (readFrom.legible inWord inClass)
    (readFrom.subroutine_wellFormed inClass) short few
    (Lowering.emits_of_result (accepted subroutine inClass)) instruction inCode

/-- The code of a class read from a source reads back, if the length of the source fits into a
word. -/
theorem readsBack (readFrom : tree.ReadFrom length) (inWord : Numeral.InWord length)
    {compiled : CompiledClass} (lowered : lowerClass tree = .ok compiled) :
    ∀ instruction ∈ compiled.code, instruction.ReadsBack :=
  fun instruction member => (readFrom.isPlain_code inWord lowered instruction member).toReadsBack

end ClassTree.ReadFrom

/-- The code of a compiled class survives being written: its listing reads back as the same
code, so it passes the check before it is saved, and so does its unit in any bundle. The
length of a source that is held in memory is a machine word. -/
theorem compiled_code_reads_back {source : Bytes} {compiled : CompiledClass}
    (held : Numeral.InWord source.length) (compiles : compileClass source = .ok compiled) :
    Machine.readListing (Machine.listing compiled.code) = .ok compiled.code ∧
    Build.checkedListing compiled = .ok (Machine.listing compiled.code) ∧
    ∀ bundle : Machine.Bundle, ∃ unit : Machine.ClassUnit,
      (bundle.add compiled.name compiled.code).units = some (bundle.units.getD [] ++ [unit]) ∧
      unit.name = compiled.name ∧ unit.code = .ok compiled.code := by
  cases read : readClass source with
  | error diagnostic =>
      rw [compileClass, read] at compiles
      cases compiles
  | ok tree =>
      rw [compileClass, read] at compiles
      have readsBack := (readFrom_of_readClass read).readsBack held compiles
      have listed := Machine.readListing_listing readsBack
      refine ⟨listed, ?_, fun bundle => ⟨.ofCode compiled.name compiled.code, rfl, rfl, ?_⟩⟩
      · simp only [Build.checkedListing, listed, if_true]
      · have listing_eq : Machine.joinLines (Machine.lines compiled.code) =
            Machine.listing compiled.code := rfl
        simp only [Machine.ClassUnit.code, Machine.ClassUnit.ofCode, Option.getD_some,
          listing_eq, listed]

/-- A method with a jump, a call and a product. -/
def steppingSource : Bytes :=
  utf8 "class A\x7bfield B b;method int f(int n)\x7bif(n)\x7breturn b.g(n*2);\x7dreturn 0;\x7d\x7d"

def steppingClass : CompiledClass :=
  ⟨utf8 "A", [.function (utf8 "A.f") 0, .push .argument 0, .pop .pointer 0, .push .argument 1,
    .ifGoto (utf8 "IF_TRUE0"), .goto (utf8 "IF_END1"), .label (utf8 "IF_TRUE0"),
    .push .this 0, .push .argument 1, .push .constant 2, .call (utf8 "Math.multiply") 2,
    .call (utf8 "B.g") 2, .ret, .label (utf8 "IF_END1"), .push .constant 0, .ret]⟩

/-- A class whose listing, checked listing and bundle unit all give its code back. -/
theorem stepping_code_reads_back :
    Numeral.InWord steppingSource.length ∧ compileClass steppingSource = .ok steppingClass ∧
      Machine.readListing (Machine.listing steppingClass.code) = .ok steppingClass.code ∧
      Build.checkedListing steppingClass = .ok (Machine.listing steppingClass.code) := by
  have held : Numeral.InWord steppingSource.length := by decide +kernel
  have compiles : compileClass steppingSource = .ok steppingClass := by decide +kernel
  obtain ⟨listed, checked, -⟩ := compiled_code_reads_back held compiles
  exact ⟨held, compiles, listed, checked⟩

end Jack
