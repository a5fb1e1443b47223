import Jack.Proofs.Binding.Histories
import Jack.Proofs.Lowering.Settings

/-!
Contract: lowered code uses only slots that are there.

Owns: how many slots of each segment a function has, and that every instruction in the
block of a function uses one of them.

Does not own: what is kept in a slot.

Slots and indexes are counted in different ways. A function makes room for each local that is
declared, a call passes one value for each parameter, and a constructor asks for as many slots
as the class scope counts fields. An index counts the names that come first for their storage.
So it stays below, whatever is declared again or hidden.
-/

set_option autoImplicit false

namespace Jack.Machine

/-- How many slots a function has, where functions differ. -/
structure Frame where
  arguments : Int
  locals : Int
  statics : Int
  fields : Int
deriving DecidableEq, Repr

namespace Frame

/-- How many slots a function has in a segment. One slot at the second pointer and one temporary
slot are all that it needs. Constants take none. -/
def size? (frame : Frame) : Segment → Option Int
  | .argument => some frame.arguments
  | .local => some frame.locals
  | .static => some frame.statics
  | .this => some frame.fields
  | .pointer => some 2
  | .that | .temp => some 1
  | .constant => none

/-- Where the segment has slots, the index is that of one. -/
def Holds (frame : Frame) (segment : Segment) (index : Int) : Prop :=
  ∀ size ∈ frame.size? segment, 0 ≤ index ∧ index < size

theorem holds_of_size {frame : Frame} {segment : Segment} {size index : Int}
    (sized : frame.size? segment = some size) (natural : 0 ≤ index) (low : index < size) :
    frame.Holds segment index := by
  intro other member
  rw [sized] at member
  cases member
  exact ⟨natural, low⟩

/-- A constant takes no slot. -/
theorem holds_constant (frame : Frame) (value : Int) : frame.Holds .constant value := by
  intro size member
  cases member

end Frame

/-- The instruction pushes from and pops to slots of the frame only. -/
def Instruction.StaysIn (frame : Frame) : Instruction → Prop
  | push segment index | pop segment index => frame.Holds segment index
  | arithmetic _ | label .. | goto .. | ifGoto .. | function .. | call .. | ret => True

end Jack.Machine

namespace Jack

open Machine (Instruction Segment Frame)

/-! ## Declarations and slots -/

namespace Declaration

/-- No more names count for a storage than are declared for it. -/
theorem tallied_le_countP (storage : Storage) (declarations : List Declaration) :
    tallied storage declarations ≤
      declarations.countP fun declaration => declaration.storage = storage :=
  (firsts_sublist declarations).countP_le

theorem countP_of_forall {declarations : List Declaration} {storage : Storage}
    (alike : ∀ declaration ∈ declarations, declaration.storage = storage) (counted : Storage) :
    (declarations.countP fun declaration => declaration.storage = counted) =
      if storage = counted then declarations.length else 0 := by
  split_ifs with same
  · rw [List.countP_eq_length]
    intro declaration member
    simp [alike declaration member, same]
  · rw [List.countP_eq_zero]
    intro declaration member
    simp [alike declaration member, same]

end Declaration

/-- What is found was declared. -/
theorem Scope.isOfClass_of_find? {declarations : List Declaration} {ofClass : Bool}
    (declared : ∀ declaration ∈ declarations, declaration.storage.isOfClass = ofClass)
    {name : Bytes} {binding : Binding}
    (found : (ofDeclarations declarations).find? name = some binding) :
    binding.storage.isOfClass = ofClass := by
  obtain ⟨front, declaration, back, rfl, -, -, rfl⟩ := find?_ofDeclarations_eq_some_iff.mp found
  exact declared declaration (by simp)

namespace Subroutine

variable {tree : Subroutine} {className : Bytes}

theorem storage_of_mem_receiver {kind : SubroutineKind} :
    ∀ declaration ∈ kind.receiver className, declaration.storage = .argument := by
  cases kind <;> simp [SubroutineKind.receiver]

theorem storage_of_mem_parameters :
    ∀ declaration ∈ tree.parameters.map Parameter.declaration,
      declaration.storage = .argument := by
  simp [Parameter.declaration]

theorem storage_of_mem_locals :
    ∀ declaration ∈ tree.body.locals.flatMap (VariableList.declarations .local),
      declaration.storage = .local := by
  simp only [List.mem_flatMap, VariableList.declarations, List.mem_map]
  rintro _ ⟨list, -, name, -, rfl⟩
  rfl

/-- The class scope is left to the class. -/
theorem isOfClass_of_mem_declared :
    ∀ declaration ∈ tree.declared className, declaration.storage.isOfClass = false := by
  simp only [declared, ownDeclared, List.forall_mem_append]
  refine ⟨?_, ?_, ?_⟩
  · intro declaration member
    rw [storage_of_mem_receiver declaration member]
    rfl
  · intro declaration member
    rw [storage_of_mem_parameters declaration member]
    rfl
  · intro declaration member
    rw [storage_of_mem_locals declaration member]
    rfl

/-- Arguments count with the receiver of a method; locals count on their own. -/
theorem countP_declared (counted : Storage) :
    ((tree.declared className).countP fun declaration => declaration.storage = counted) =
      (if .argument = counted then tree.parameters.length + tree.kind.receivers else 0) +
        if .local = counted then Lowering.localCount tree.body else 0 := by
  have receivers : (tree.kind.receiver className).length = tree.kind.receivers := by
    cases tree.kind <;> rfl
  have locals : (tree.body.locals.flatMap (VariableList.declarations .local)).length =
      Lowering.localCount tree.body := by
    simp [Lowering.localCount, VariableList.declarations]
  rw [declared, ownDeclared, List.countP_append, List.countP_append,
    Declaration.countP_of_forall storage_of_mem_receiver,
    Declaration.countP_of_forall storage_of_mem_parameters,
    Declaration.countP_of_forall storage_of_mem_locals, receivers, locals, List.length_map]
  split_ifs <;> omega

end Subroutine

namespace ClassTree

variable {tree : ClassTree} {subroutine : Subroutine}

theorem isOfClass_of_mem_declared :
    ∀ declaration ∈ tree.declared, declaration.storage.isOfClass = true := by
  simp only [declared, List.mem_flatMap, VariableList.declarations, List.mem_map]
  rintro _ ⟨⟨kind, list⟩, -, name, -, rfl⟩
  cases kind <;> rfl

/-- The slots of a subroutine: a call passes the receiver of a method and the parameters, the
function instruction makes room for all locals, and the class scope counts the rest. -/
def frame (tree : ClassTree) (subroutine : Subroutine) : Frame where
  arguments := (subroutine.parameters.length + subroutine.kind.receivers : Nat)
  locals := Lowering.localCount subroutine.body
  statics := (Scope.ofDeclarations tree.declared).tally.count .static
  fields := (Scope.ofDeclarations tree.declared).tally.count .field

section Variables

variable {name : Bytes} {binding : Binding}

/-- A slot is smaller than the number of declarations for its storage, repeated names included. -/
theorem frame_holds_of_subroutine
    (found : (Scope.ofDeclarations (subroutine.declared tree.name)).find? name = some binding) :
    (tree.frame subroutine).Holds binding.storage.segment binding.index := by
  have low := (Scope.dense_ofDeclarations _).below name binding found
  rw [Scope.count_ofDeclarations] at low
  have inSubroutine := Scope.isOfClass_of_find? Subroutine.isOfClass_of_mem_declared found
  have room := Declaration.tallied_le_countP binding.storage (subroutine.declared tree.name)
  rw [Subroutine.countP_declared] at room
  cases storage : binding.storage with
  | static | field =>
      rw [storage] at inSubroutine
      cases inSubroutine
  | argument | «local» =>
      rw [storage] at low room
      refine Frame.holds_of_size rfl (Int.natCast_nonneg _) (Int.ofNat_lt.mpr ?_)
      exact Nat.lt_of_lt_of_le low (by simpa using room)

/-- Fields and statics lie within the sizes that the class has for them. -/
theorem frame_holds_of_class
    (found : (Scope.ofDeclarations tree.declared).find? name = some binding) :
    (tree.frame subroutine).Holds binding.storage.segment binding.index := by
  have low := (Scope.dense_ofDeclarations _).below name binding found
  have inClass := Scope.isOfClass_of_find? isOfClass_of_mem_declared found
  cases storage : binding.storage with
  | static | field =>
      rw [storage] at low
      exact Frame.holds_of_size rfl (Int.natCast_nonneg _) (Int.ofNat_lt.mpr low)
  | argument | «local» =>
      rw [storage] at inClass
      cases inClass

/-- Every variable has a slot. -/
theorem frame_holds_binding
    (bound : (tree.setting subroutine).bindings.resolve? name = some binding) :
    (tree.frame subroutine).Holds binding.storage.segment binding.index := by
  rcases Option.or_eq_some_iff.mp bound with found | ⟨-, found⟩
  · exact frame_holds_of_subroutine found
  · exact frame_holds_of_class found

end Variables

end ClassTree

/-! ## Instructions -/

namespace Lowering

variable {tree : ClassTree} {subroutine : Subroutine} {instruction : Instruction}

/-- Besides variables, only fixed cells are touched. -/
theorem Computing.staysIn (computing : Computing (tree.setting subroutine) instruction) :
    instruction.StaysIn (tree.frame subroutine) := by
  cases computing with
  | constant => exact Frame.holds_constant _ _
  | variableRead bound => exact ClassTree.frame_holds_binding bound
  | receiver | elementPointer | elementRead =>
      exact Frame.holds_of_size rfl (by decide) (by decide)
  | arithmetic | call => trivial

theorem Emittable.staysIn (emittable : Emittable (tree.setting subroutine) instruction) :
    instruction.StaysIn (tree.frame subroutine) := by
  cases emittable with
  | computing computing => exact computing.staysIn
  | variableWrite bound => exact ClassTree.frame_holds_binding bound
  | elementWrite | waitingRead | waitingWrite =>
      exact Frame.holds_of_size rfl (by decide) (by decide)
  | label | goto | ifGoto | ret => trivial

/-- A method finds its receiver in front of its parameters. -/
theorem staysIn_prologueCode (fields : Nat) :
    ∀ instruction ∈ prologueCode subroutine.kind fields,
      instruction.StaysIn (tree.frame subroutine) := by
  have pointer : (Instruction.pop .pointer 0).StaysIn (tree.frame subroutine) :=
    Frame.holds_of_size rfl (by decide) (by decide)
  cases kind : subroutine.kind with
  | constructor =>
      simp only [prologueCode, List.mem_cons, List.not_mem_nil, or_false]
      rintro _ (rfl | rfl | rfl)
      exacts [Frame.holds_constant _ _, trivial, pointer]
  | method =>
      have received : (0 : Int) < (tree.frame subroutine).arguments := by
        simp only [ClassTree.frame, kind, SubroutineKind.receivers]
        omega
      simp only [prologueCode, List.mem_cons, List.not_mem_nil, or_false]
      rintro _ (rfl | rfl)
      exacts [Frame.holds_of_size rfl (by decide) received, pointer]
  | function => simp [prologueCode]

/-- No instruction of a function leaves the frame that its subroutine gets. -/
theorem IsCodeOf.staysIn {function : FunctionCode}
    (isCode : IsCodeOf subroutine (tree.setting subroutine) function) :
    ∀ instruction ∈ function.block, instruction.StaysIn (tree.frame subroutine) := by
  obtain ⟨bodyCode, next, emitted, same⟩ := isCode.block_eq
  rw [same, List.forall_mem_append]
  refine ⟨staysIn_prologueCode _, ?_⟩
  intro instruction member
  exact (emittable_of_emits_statements _ emitted instruction member).staysIn

/-- The function is that of a subroutine and uses only the slots that it has: those that its own
function instruction makes room for, that a call passes, and that the bindings count. -/
structure FitsFrame (className : Bytes) (bindings : Bindings) (subroutine : Subroutine)
    (function : FunctionCode) : Prop where
  name_eq : function.name = qualified className subroutine.name
  plain : function.Plain
  /-- An object has a slot for each field that is counted. -/
  allocates : subroutine.kind = .constructor →
    [.push .constant (bindings.count .field), .call (utf8 "Memory.alloc") 1] <+: function.block
  staysIn : ∀ instruction ∈ function.block, instruction.StaysIn
    { arguments := (subroutine.parameters.length + subroutine.kind.receivers : Nat)
      locals := function.locals
      statics := bindings.count .static
      fields := bindings.count .field }

/-- The sizes of the frame are those that the code itself asks for: the locals of the function and
the words that the constructor allocates. -/
theorem fitsFrame_functionOf {bindings : Bindings}
    (ofClass : bindings.ofClass = Scope.ofDeclarations tree.declared)
    (succeeded : (tree.emission subroutine).result = .ok ()) :
    FitsFrame tree.name bindings subroutine (tree.functionOf subroutine) := by
  have counted (storage : Storage) (inClass : storage.isOfClass = true) :
      bindings.count storage = (Scope.ofDeclarations tree.declared).tally.count storage := by
    rw [Bindings.count, if_pos inClass, ofClass]
  have isCode := (ClassTree.isCodeOf_functionOf succeeded).2
  refine ⟨rfl, isCode.plain, ?_, ?_⟩
  · intro kind
    obtain ⟨bodyCode, next, -, block⟩ := isCode.block_eq
    rw [block, kind, counted .field rfl]
    exact ⟨.pop .pointer 0 :: bodyCode, rfl⟩
  · rw [counted .static rfl, counted .field rfl]
    exact isCode.staysIn

end Lowering

/-- A class that is accepted in a new context is lowered to one function for each subroutine,
and each uses only slots that are there. -/
theorem lowered_functions_fit_frames {tree : ClassTree} {final : Lowering.Context}
    (accepted : ({} : Lowering.Context).addClass tree = (.ok (), final)) :
    ∃ functions : List Lowering.FunctionCode,
      final.code = functions.flatMap Lowering.FunctionCode.code ∧
      List.Forall₂ (Lowering.FitsFrame tree.name final.bindings) tree.subroutines functions := by
  have ofClass := Lowering.Context.ofClass_addClass tree
  rw [accepted] at ofClass
  rcases Lowering.Context.addClass_cases tree with ⟨succeeded, last, same, code⟩ |
    ⟨_, _, _, _, -, -, -, _, same, -⟩
  · obtain rfl : final = last := (Prod.mk.inj (accepted.symm.trans same)).2
    refine ⟨tree.subroutines.map tree.functionOf, ?_, ?_⟩
    · rw [code, ClassTree.flatMap_code_functionOf succeeded]
    · rw [List.forall₂_map_right_iff, List.forall₂_same]
      intro subroutine member
      exact Lowering.fitsFrame_functionOf ofClass (succeeded subroutine member)
  · rw [accepted] at same
    cases same

/-- Names are declared again as another field, as a static, as a parameter and as a local. -/
def repetitive : ClassTree where
  name := utf8 "Cell"
  declarations :=
    [⟨.field, utf8 "int", [utf8 "x", utf8 "x", utf8 "y"], 1⟩,
      ⟨.static, utf8 "int", [utf8 "y", utf8 "last"], 2⟩]
  subroutines :=
    [{ kind := .constructor, result := utf8 "Cell", name := utf8 "new", parameters := []
       body := {
         locals := []
         statements :=
           [.letTo (.name (utf8 "y") 4) (.mk (.name (utf8 "last") 4) []) 4,
             .giveBack (some (.mk (.keyword (utf8 "this") 5) [])) 5] }
       line := 3 },
     { kind := .method, result := utf8 "int", name := utf8 "next"
       parameters := [⟨utf8 "int", utf8 "a"⟩, ⟨utf8 "int", utf8 "a"⟩, ⟨utf8 "int", utf8 "y"⟩]
       body := {
         locals := [⟨utf8 "int", [utf8 "a", utf8 "b"], 7⟩]
         statements :=
           [.letTo (.name (utf8 "b") 8) (.mk (.name (utf8 "y") 8) []) 8,
             .giveBack (some (.mk (.name (utf8 "a") 9) [])) 9] }
       line := 6 }]
  line := 1

/-- Repeated and hidden names get no slots of their own. -/
theorem repetitive_fits_frames :
    ∃ final, ({} : Lowering.Context).addClass repetitive = (.ok (), final) ∧
      final.code =
        [.function (utf8 "Cell.new") 0,
          .push .constant 2, .call (utf8 "Memory.alloc") 1, .pop .pointer 0,
          .push .static 0, .pop .this 1, .push .pointer 0, .ret,
        .function (utf8 "Cell.next") 2,
          .push .argument 0, .pop .pointer 0,
          .push .argument 2, .pop .local 0, .push .argument 1, .ret] ∧
      ∃ functions : List Lowering.FunctionCode,
        final.code = functions.flatMap Lowering.FunctionCode.code ∧
        List.Forall₂ (Lowering.FitsFrame (utf8 "Cell") final.bindings) repetitive.subroutines
          functions := by
  have accepted : ({} : Lowering.Context).addClass repetitive =
      (.ok (), (({} : Lowering.Context).addClass repetitive).2) := rfl
  exact ⟨_, accepted, by decide +kernel, lowered_functions_fit_frames accepted⟩

end Jack
