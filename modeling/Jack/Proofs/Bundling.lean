import Jack.Proofs.Grammar.Printing
import Jack.Proofs.Lowering.Legibility
import Jack.Proofs.Machine.Bundle

/-!
Contract: bundles of compiled classes, from the sources to what is read from the bytes.

Owns: the bundle of several classes, that its texts are UTF-8, that it is read back exactly
if it is within the limits, and a class that is not.

Does not own: the round trip of a bundle with given texts.
-/

set_option autoImplicit false

namespace Jack

open Machine (Bundle ClassUnit Instruction)
open Cbor (Item maxElements maxArgument)

/-! ## Classes as units -/

def CompiledClass.unit (compiled : CompiledClass) : ClassUnit :=
  .ofCode compiled.name compiled.code

/-- The bundle with several classes at its end, in order. -/
def Machine.Bundle.addAll (bundle : Bundle) (classes : List CompiledClass) : Bundle :=
  classes.foldl (fun bundle compiled => bundle.add compiled.name compiled.code) bundle

/-- Adding classes one by one puts their units at the end, in order. -/
theorem Machine.Bundle.addAll_eq (bundle : Bundle) (classes : List CompiledClass) :
    bundle.addAll classes =
      { bundle with
        units := if classes = [] then bundle.units
          else some (bundle.units.getD [] ++ classes.map CompiledClass.unit) } := by
  induction classes generalizing bundle with
  | nil => rfl
  | cons first rest inductionHypothesis =>
      have added := inductionHypothesis (bundle.add first.name first.code)
      rw [addAll] at added ⊢
      rw [List.foldl_cons, added, if_neg (List.cons_ne_nil _ _)]
      cases rest with
      | nil => rfl
      | cons second others =>
          rw [if_neg (List.cons_ne_nil _ _)]
          simp [Bundle.add, CompiledClass.unit]

/-- A class is compiled if it is read and lowered; there is no third way to fail. -/
theorem compileClass_eq_ok_iff {source : Bytes} {compiled : CompiledClass} :
    compileClass source = .ok compiled ↔
      ∃ tree, readClass source = .ok tree ∧ lowerClass tree = .ok compiled := by
  rw [compileClass]
  cases readClass source with
  | error diagnostic => exact iff_of_false (fun absurd => by cases absurd) (by simp)
  | ok tree => simp [bind, Except.bind]

/-- Each class of several is compiled from one of the sources. -/
theorem exists_source_of_compileAll {sources : List Bytes} {classes : List CompiledClass}
    (compiles : compileAll sources = .ok classes) {compiled : CompiledClass}
    (member : compiled ∈ classes) :
    ∃ source ∈ sources, compileClass source = .ok compiled := by
  induction sources generalizing classes with
  | nil =>
      cases compiles
      cases member
  | cons source rest inductionHypothesis =>
      rw [compileAll, List.mapM_cons] at compiles
      cases first : compileClass source with
      | error diagnostic =>
          rw [first] at compiles
          cases compiles
      | ok compiledFirst =>
          cases others : rest.mapM compileClass with
          | error diagnostic =>
              rw [first, others] at compiles
              cases compiles
          | ok compiledRest =>
              rw [first, others] at compiles
              cases compiles
              rcases List.mem_cons.mp member with rfl | inRest
              · exact ⟨source, List.mem_cons_self, first⟩
              · obtain ⟨found, inSources, compilesTo⟩ := inductionHypothesis others inRest
                exact ⟨found, List.mem_cons_of_mem _ inSources, compilesTo⟩

section Units

variable {source : Bytes} {compiled : CompiledClass}

/-- All names in compiled code are plain, since they come from a source. -/
theorem isPlain_of_compileClass (held : Numeral.InWord source.length)
    (compiles : compileClass source = .ok compiled) :
    Machine.IsPlainWord compiled.name ∧ ∀ instruction ∈ compiled.code, instruction.IsPlain := by
  obtain ⟨tree, read, lowered⟩ := compileClass_eq_ok_iff.mp compiles
  have readFrom := readFrom_of_readClass read
  refine ⟨?_, readFrom.isPlain_code held lowered⟩
  rw [(lowerClass_eq_ok_iff.mp lowered).2]
  exact readFrom.name_isPlainWord

/-- The name and the lines of a compiled class are ASCII. -/
theorem isText_unit (held : Numeral.InWord source.length)
    (compiles : compileClass source = .ok compiled) : compiled.unit.isText = true := by
  obtain ⟨named, plain⟩ := isPlain_of_compileClass held compiles
  rw [ClassUnit.isText, Bool.and_eq_true]
  constructor
  · exact Text.isWellFormed_of_ascii fun byte member =>
      (Machine.isPlain_iff.mp (named.plain byte member)).2.1
  · simp only [CompiledClass.unit, ClassUnit.ofCode, Machine.lines, Option.getD_some,
      List.all_eq_true, List.forall_mem_map]
    exact fun instruction member => Text.isWellFormed_of_ascii (plain instruction member).ascii_text

theorem code_unit (held : Numeral.InWord source.length)
    (compiles : compileClass source = .ok compiled) : compiled.unit.code = .ok compiled.code := by
  obtain ⟨-, plain⟩ := isPlain_of_compileClass held compiles
  have listed := Machine.readListing_listing fun instruction member =>
    (plain instruction member).toReadsBack
  have same : Machine.joinLines (compiled.unit.lines.getD []) = Machine.listing compiled.code := rfl
  rw [ClassUnit.code, same, listed]

end Units

/-! ## Bundles -/

theorem units_addAll (id : Bytes) (classes : List CompiledClass) :
    (({ id } : Bundle).addAll classes).units.getD [] = classes.map CompiledClass.unit := by
  rw [Bundle.addAll_eq]
  cases classes <;> rfl

/-- The limits of a bundle are those on its number of classes and on the length of each of them. -/
theorem withinLimits_addAll (id : Bytes) (classes : List CompiledClass) :
    (({ id } : Bundle).addAll classes).withinLimits = true ↔
      classes.length ≤ maxElements ∧ ∀ compiled ∈ classes, compiled.code.length ≤ maxElements := by
  rw [Bundle.withinLimits, units_addAll]
  simp [ClassUnit.withinLimits, CompiledClass.unit, ClassUnit.ofCode, Machine.lines]

/-- The bundle of classes that compile has UTF-8 texts. -/
theorem isText_addAll {sources : List Bytes} {classes : List CompiledClass} {id : Bytes}
    (held : ∀ source ∈ sources, Numeral.InWord source.length)
    (compiles : compileAll sources = .ok classes) (isText : Utf8.isWellFormed id = true) :
    (({ id } : Bundle).addAll classes).isText = true := by
  rw [Bundle.isText, units_addAll, Bool.and_eq_true, List.all_eq_true, List.forall_mem_map]
  refine ⟨by rwa [Bundle.addAll_eq], fun compiled member => ?_⟩
  obtain ⟨source, inSources, compilesTo⟩ := exists_source_of_compileAll compiles member
  exact isText_unit (held source inSources) compilesTo

/-- A bundle with the classes of all sources is read from its bytes as it was, unit by unit,
if there are not too many classes and no class has too much code; otherwise it can not be
read at all. Each unit has the code of its class. The lengths of what is held in memory are
machine words. -/
theorem compiled_bundle_reads_back {sources : List Bytes} {classes : List CompiledClass}
    {id : Bytes} (held : ∀ source ∈ sources, Numeral.InWord source.length)
    (compiles : compileAll sources = .ok classes) (isText : Utf8.isWellFormed id = true)
    (bundleHeld : Numeral.InWord (({ id } : Bundle).addAll classes).encode.length) :
    Bundle.decode? (({ id } : Bundle).addAll classes).encode =
      (if classes.length ≤ maxElements ∧
          ∀ compiled ∈ classes, compiled.code.length ≤ maxElements then
        some ⟨id, if classes = [] then none else some (classes.map CompiledClass.unit)⟩
      else none) ∧
    ∀ compiled ∈ classes, compiled.unit.name = compiled.name ∧
      compiled.unit.lines = some (compiled.code.map Instruction.text) ∧
      compiled.unit.code = .ok compiled.code := by
  have short : (({ id } : Bundle).addAll classes).encode.length < maxArgument := by
    simp only [Numeral.InWord] at bundleHeld
    rw [maxArgument]
    omega
  refine ⟨?_, fun compiled member => ⟨rfl, rfl, ?_⟩⟩
  · rw [Bundle.decode?_encode (isText_addAll held compiles isText) short]
    simp only [withinLimits_addAll]
    rw [Bundle.addAll_eq]
    rfl
  · obtain ⟨source, inSources, compilesTo⟩ := exists_source_of_compileAll compiles member
    exact code_unit (held source inSources) compilesTo

/-- Two sources, one of them of a class without code. -/
def pairedSources : List Bytes :=
  [steppingSource, utf8 "class B\x7b\x7d"]

def pairedClasses : List CompiledClass :=
  [steppingClass, ⟨utf8 "B", []⟩]

/-- Two classes and an identifier that is not ASCII. -/
theorem paired_bundle_reads_back :
    (∀ source ∈ pairedSources, Numeral.InWord source.length) ∧
    compileAll pairedSources = .ok pairedClasses ∧ Utf8.isWellFormed (utf8 "é") = true ∧
    Numeral.InWord (({ id := utf8 "é" } : Bundle).addAll pairedClasses).encode.length ∧
    Bundle.decode? (({ id := utf8 "é" } : Bundle).addAll pairedClasses).encode =
      some ⟨utf8 "é", some (pairedClasses.map CompiledClass.unit)⟩ ∧
    ∀ compiled ∈ pairedClasses, compiled.unit.code = .ok compiled.code := by
  have held : ∀ source ∈ pairedSources, Numeral.InWord source.length := by decide +kernel
  have compiles : compileAll pairedSources = .ok pairedClasses := by decide +kernel
  have isText : Utf8.isWellFormed (utf8 "é") = true := by decide +kernel
  have bundleHeld :
      Numeral.InWord (({ id := utf8 "é" } : Bundle).addAll pairedClasses).encode.length := by
    decide +kernel
  obtain ⟨read, units⟩ := compiled_bundle_reads_back held compiles isText bundleHeld
  refine ⟨held, compiles, isText, bundleHeld, ?_,
    fun compiled member => (units compiled member).2.2⟩
  rw [read, if_pos (by decide +kernel)]
  rfl

/-! ## A class that is too long -/

/-- Zero, inverted this many times. -/
def inverted : Nat → Term
  | 0 => .integer 0 0
  | count + 1 => .unary ⟨utf8 "~", 0⟩ (inverted count) 0

/-- A short statement with much code. -/
def wordyStatement : Statement :=
  .giveBack (some (.mk (inverted 62) [])) 0

def wordyCode : List Instruction :=
  .push .constant 0 :: (List.replicate 62 (Instruction.arithmetic .not) ++ [Instruction.ret])

/-- A function that has this statement over and over. -/
def wordyFunction (count : Nat) : Subroutine where
  kind := .function
  result := utf8 "int"
  name := utf8 "f"
  parameters := []
  body := { locals := [], statements := List.replicate count wordyStatement }
  line := 0

def wordyTree (count : Nat) : ClassTree where
  name := utf8 "A"
  declarations := []
  subroutines := [wordyFunction count]
  line := 0

def wordySource (count : Nat) : Bytes :=
  printed (wordyTree count).spelling

def wordyClass (count : Nat) : CompiledClass :=
  ⟨utf8 "A", .function (utf8 "A.f") 0 :: (List.replicate count wordyCode).flatten⟩

theorem forall_mem_flatten_replicate {Element : Type} {test : Element → Prop}
    {elements : List Element} (each : ∀ element ∈ elements, test element) (count : Nat) :
    ∀ element ∈ (List.replicate count elements).flatten, test element := by
  intro element member
  obtain ⟨copy, among, inCopy⟩ := List.mem_flatten.mp member
  rw [List.eq_of_mem_replicate among] at inCopy
  exact each element inCopy

theorem allSpelling_replicate (statement : Statement) (count : Nat) :
    Statement.allSpelling (List.replicate count statement) =
      (List.replicate count statement.spelling).flatten := by
  induction count with
  | zero => rfl
  | succ count inductionHypothesis =>
      rw [List.replicate_succ, Statement.allSpelling, inductionHypothesis]
      rfl

theorem allWellFormed_replicate {statement : Statement} (wellFormed : statement.wellFormed = true)
    (count : Nat) : Statement.allWellFormed (List.replicate count statement) = true := by
  induction count with
  | zero => rfl
  | succ count inductionHypothesis =>
      rw [List.replicate_succ, Statement.allWellFormed, inductionHypothesis, wellFormed]
      rfl

/-- A statement that takes no label number can be repeated; its code is repeated with it. -/
theorem emits_replicate {statement : Statement} {code : List Instruction}
    {setting : Lowering.Setting} {label : Nat}
    (emits : Lowering.Emits (Lowering.statement statement) setting label code label ())
    (count : Nat) :
    Lowering.Emits (Lowering.statements (List.replicate count statement)) setting label
      (List.replicate count code).flatten label () := by
  induction count with
  | zero => exact Lowering.emits_statements_nil_iff.mpr ⟨rfl, rfl⟩
  | succ count inductionHypothesis =>
      rw [List.replicate_succ, List.replicate_succ, List.flatten_cons]
      exact Lowering.emits_statements_cons_iff.mpr ⟨_, _, _, emits, inductionHypothesis, rfl⟩

theorem wellFormed_wordyTree (count : Nat) : (wordyTree count).wellFormed = true := by
  have wellFormed : wordyStatement.wellFormed = true := by decide
  have statements := allWellFormed_replicate wellFormed count
  simp only [ClassTree.wellFormed, wordyTree, wordyFunction, Subroutine.wellFormed,
    SubroutineBody.wellFormed, List.all_cons, List.all_nil, statements]
  decide

theorem spelling_wordyTree (count : Nat) :
    (wordyTree count).spelling =
      ([.keyword "class", .name (utf8 "A"), .symbol "\x7b", .keyword "function",
        .keyword "int", .name (utf8 "f"), .symbol "(", .symbol ")", .symbol "\x7b"] : Spelling) ++
      ((List.replicate count wordyStatement.spelling).flatten ++
        ([.symbol "\x7d", .symbol "\x7d"] : Spelling)) := by
  have kind : Piece.keyword SubroutineKind.function.name = .keyword "function" := rfl
  have result : Piece.type resultTypes (utf8 "int") = .keyword "int" := by decide
  simp [ClassTree.spelling, wordyTree, wordyFunction, Subroutine.spelling,
    SubroutineBody.spelling, allSpelling_replicate, kind, result, separated]

/-- Every piece of the wordy tree can be printed, so it has a source. -/
theorem isPrintable_wordyTree (count : Nat) :
    ∀ piece ∈ (wordyTree count).spelling, piece.isPrintable = true := by
  rw [spelling_wordyTree, List.forall_mem_append, List.forall_mem_append]
  exact ⟨by decide, forall_mem_flatten_replicate (by decide +kernel) count, by decide⟩

theorem emits_inverted (setting : Lowering.Setting) (label count : Nat) :
    Lowering.Emits (Lowering.term (inverted count)) setting label
      (.push .constant 0 :: List.replicate count (.arithmetic .not)) label () := by
  induction count with
  | zero => exact Lowering.emits_integer_iff.mpr ⟨by decide, rfl, rfl⟩
  | succ count inductionHypothesis =>
      rw [List.replicate_succ', ← List.cons_append]
      exact Lowering.emits_unary_iff.mpr ⟨_, _, inductionHypothesis, by decide, rfl⟩

theorem emits_wordyStatement (setting : Lowering.Setting) (label : Nat) :
    Lowering.Emits (Lowering.statement wordyStatement) setting label wordyCode label () := by
  have nothing : Lowering.Emits (Lowering.operations []) setting label [] label () :=
    Lowering.emits_operations_nil_iff.mpr ⟨rfl, rfl⟩
  have value := Lowering.emits_expression_iff.mpr
    ⟨_, _, _, emits_inverted setting label 62, nothing, (List.append_nil _).symm⟩
  exact Lowering.emits_giveBack_some_iff.mpr ⟨_, value, rfl⟩

/-- However long it is, the wordy function is lowered without a fault. -/
theorem emission_wordyTree (count : Nat) :
    (wordyTree count).emission (wordyFunction count) = ⟨(wordyClass count).code, 0, .ok ()⟩ := by
  apply Lowering.emits_subroutine_iff.mpr
  refine ⟨?_, _, emits_replicate (emits_wordyStatement _ 0) count, rfl⟩
  intro constructs
  cases constructs

theorem lowerClass_wordyTree (count : Nat) :
    lowerClass (wordyTree count) = .ok (wordyClass count) := by
  have only : (wordyTree count).subroutines = [wordyFunction count] := rfl
  rw [lowerClass_eq_ok_iff, only, List.forall_mem_singleton, List.flatMap_singleton,
    emission_wordyTree]
  exact ⟨rfl, rfl⟩

theorem compileAll_wordySource (count : Nat) :
    compileAll [wordySource count] = .ok [wordyClass count] := by
  have compiles := compileClass_printed (wellFormed_wordyTree count)
    (isPrintable_wordyTree count) (lowerClass_wordyTree count)
  rw [compileAll, List.mapM_cons, wordySource, compiles]
  rfl

/-- Sixty-four instructions for each statement, and one for the function. -/
theorem length_code_wordyClass (count : Nat) :
    (wordyClass count).code.length = 64 * count + 1 := by
  simp [wordyClass, wordyCode, Nat.mul_comm]

theorem text_wordyClass (count : Nat) : ∀ instruction ∈ (wordyClass count).code,
    instruction.text.length ≤ 15 ∧ Utf8.isWellFormed instruction.text = true := by
  rw [wordyClass, List.forall_mem_cons]
  exact ⟨by decide +kernel, forall_mem_flatten_replicate (by decide +kernel) count⟩

theorem length_ofText_le (text : Bytes) : (Item.ofText text).encode.length ≤ text.length + 9 := by
  have short := Cbor.length_head_le 3 text.length
  simp only [Item.ofText, Item.encode, List.flatten_singleton, List.length_append]
  omega

/-- The bundle is far shorter than what a word can count; so only the number of elements is in the
way. -/
theorem length_bundle_wordyClass (count : Nat) :
    (({ id := utf8 "b" } : Bundle).addAll [wordyClass count]).encode.length ≤
      (64 * count + 1) * 24 + 126 := by
  have lines : (Item.encodeItems
      ((Machine.lines (wordyClass count).code).map Item.ofText)).length ≤
      (64 * count + 1) * 24 := by
    have each : ∀ line ∈ (Machine.lines (wordyClass count).code).map Item.ofText,
        line.encode.length ≤ 24 := by
      rw [List.forall_mem_map, Machine.lines, List.forall_mem_map]
      intro instruction member
      have short := (text_wordyClass count instruction member).1
      have encoded := length_ofText_le instruction.text
      omega
    have all := Item.length_encodeItems_le each
    rwa [List.length_map, Machine.lines, List.length_map, length_code_wordyClass] at all
  have texts : (Item.ofText (utf8 "id")).encode.length + (Item.ofText (utf8 "b")).encode.length +
      (Item.ofText (utf8 "units")).encode.length + (Item.ofText (utf8 "class")).encode.length +
      (Item.ofText (utf8 "A")).encode.length +
      (Item.ofText (utf8 "instructions")).encode.length ≤ 90 := by
    decide +kernel
  have form : (({ id := utf8 "b" } : Bundle).addAll [wordyClass count]).item =
      .map [(.ofText (utf8 "id"), .ofText (utf8 "b")), (.ofText (utf8 "units"), .array
        [.map [(.ofText (utf8 "class"), .ofText (utf8 "A")), (.ofText (utf8 "instructions"), .array
          ((Machine.lines (wordyClass count).code).map Item.ofText))]])] := rfl
  have pairHead := Cbor.length_head_le 5 2
  have unitsHead := Cbor.length_head_le 4 1
  have linesHead := Cbor.length_head_le 4
    ((Machine.lines (wordyClass count).code).map Item.ofText).length
  rw [Bundle.encode, form]
  simp only [Item.encode, Item.encodeEntries, Item.encodeItems, List.length_append,
    List.length_cons, List.length_nil, Nat.zero_add, Nat.reduceAdd]
  omega

/-- A class that compiles, with a bundle that can be written but not read. -/
theorem wordy_bundle_not_read :
    compileAll [wordySource 2048] = .ok [wordyClass 2048] ∧
    Bundle.decode? (({ id := utf8 "b" } : Bundle).addAll [wordyClass 2048]).encode = none := by
  have unitText : (wordyClass 2048).unit.isText = true := by
    rw [ClassUnit.isText, Bool.and_eq_true, List.all_eq_true]
    refine ⟨by decide +kernel, List.forall_mem_map.mpr ?_⟩
    exact fun instruction member => (text_wordyClass 2048 instruction member).2
  have isText : (({ id := utf8 "b" } : Bundle).addAll [wordyClass 2048]).isText = true := by
    rw [Bundle.isText, units_addAll, Bool.and_eq_true]
    exact ⟨by decide +kernel, by simpa using unitText⟩
  have size := length_bundle_wordyClass 2048
  have short : (({ id := utf8 "b" } : Bundle).addAll [wordyClass 2048]).encode.length <
      maxArgument := by
    rw [maxArgument]
    omega
  refine ⟨compileAll_wordySource 2048, ?_⟩
  rw [Bundle.decode?_encode isText short, if_neg]
  rw [withinLimits_addAll, List.forall_mem_singleton, length_code_wordyClass, maxElements]
  omega

end Jack
