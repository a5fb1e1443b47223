import Jack.Proofs.Grammar.Statements

/-!
Contract: the rules for declarations find exactly the declarations, and a class is read
exactly from its spelling.

Owns: for types, names, variables, parameters, subroutines and classes that their rules are
sound and complete, and what follows for the reading of all tokens of a source.

Does not own: which tokens a source has.
-/

set_option autoImplicit false

namespace Jack

open Rule Production

/-! ## Kinds of trees -/

namespace Phrase

def type (reserved : List String) : Phrase Bytes where
  spelling name := [.type reserved name]
  WellFormed name := isType reserved name = true
  withoutLines := id

def nameToken : Phrase Token where
  spelling token := [.name token.content]
  WellFormed token := isIdentifier token.content = true
  withoutLines token := ⟨.identifier, token.content, 0⟩

def names : Phrase (List Bytes) where
  spelling names := separated (names.map fun name => [.name name])
  WellFormed names := names ≠ [] ∧ ∀ name ∈ names, isIdentifier name = true
  withoutLines := id

def variableList : Phrase VariableList where
  spelling := VariableList.spelling
  WellFormed list := list.wellFormed = true
  withoutLines := VariableList.withoutLines

def classVariables : Phrase ClassVariables where
  spelling := ClassVariables.spelling
  WellFormed declaration := declaration.list.wellFormed = true
  withoutLines := ClassVariables.withoutLines

def localVariables : Phrase VariableList :=
  variableList.behind (.keyword "var")

def parameter : Phrase Parameter where
  spelling := Parameter.spelling
  WellFormed tree := tree.wellFormed = true
  withoutLines := id

def parameters : Phrase (List Parameter) :=
  parameter.commas.enclosed "(" ")"

def body : Phrase SubroutineBody where
  spelling := SubroutineBody.spelling
  WellFormed tree := tree.wellFormed = true
  withoutLines := SubroutineBody.withoutLines

def subroutine : Phrase Subroutine where
  spelling := Subroutine.spelling
  WellFormed tree := tree.wellFormed = true
  withoutLines := Subroutine.withoutLines

def classTree : Phrase ClassTree where
  spelling := ClassTree.spelling
  WellFormed tree := tree.wellFormed = true
  withoutLines := ClassTree.withoutLines

end Phrase

section Classes

variable {tokens : Array Token} {pos rest : Nat}

/-! ## Words, types and names -/

theorem single_of_mem_words {words : List String} :
    ∀ alternative ∈ words.map word, ∀ token rest, Finds alternative tokens pos token rest →
      (tokens[pos]?).map id = some token ∧ rest = pos + 1 := by
  intro alternative member token rest found
  obtain ⟨text, _, rfl⟩ := List.mem_map.mp member
  obtain ⟨here, _, moved⟩ := finds_literal_iff.mp found
  exact ⟨by simpa using here, moved⟩

/-- One of some keywords. -/
theorem exists_mem_words_iff (lexed : Lexed tokens) {words : List String}
    (reserved : ∀ text ∈ words, Alphabet.isKeyword (utf8 text) = true) {token : Token} :
    (∃ alternative ∈ words.map word, Finds alternative tokens pos token rest) ↔
      tokens[pos]? = some token ∧
        (token.kind = .keyword ∧ isAmong words token.content = true) ∧ rest = pos + 1 := by
  constructor
  · rintro ⟨_, member, found⟩
    obtain ⟨text, isWord, rfl⟩ := List.mem_map.mp member
    obtain ⟨here, ⟨kind, content⟩, moved⟩ :=
      (lexed.finds_keyword_iff text (reserved text isWord)).mp found
    refine ⟨here, ⟨kind, ?_⟩, moved⟩
    exact isAmong_iff.mpr ⟨text, isWord, content.symm⟩
  · rintro ⟨here, ⟨kind, among⟩, moved⟩
    obtain ⟨text, isWord, content⟩ := isAmong_iff.mp among
    exact ⟨word text, List.mem_map_of_mem isWord,
      (lexed.finds_keyword_iff text (reserved text isWord)).mpr
        ⟨here, ⟨kind, content.symm⟩, moved⟩⟩

/-- One of several keywords is found where a token is one of them. The rules compare texts only, but
no token of another kind has the text of a keyword. -/
theorem finds_words_iff (lexed : Lexed tokens) {words : List String}
    (reserved : ∀ text ∈ words, Alphabet.isKeyword (utf8 text) = true) {token : Token} :
    Finds (firstOf (words.map word)) tokens pos token rest ↔
      tokens[pos]? = some token ∧
        (token.kind = .keyword ∧ isAmong words token.content = true) ∧ rest = pos + 1 := by
  rw [finds_firstOf_iff_of_single single_of_mem_words, exists_mem_words_iff lexed reserved]

/-- A name is no reserved word, so a type is either a keyword or a name and never both. -/
theorem isAmong_of_isIdentifier {reserved : List String} {name : Bytes}
    (keywords : ∀ text ∈ reserved, Alphabet.isKeyword (utf8 text) = true)
    (named : isIdentifier name = true) : isAmong reserved name = false := by
  rw [Bool.eq_false_iff]
  intro among
  obtain ⟨text, member, rfl⟩ := isAmong_iff.mp among
  have keyword := keywords text member
  unfold isIdentifier at named
  split at named
  · exact Bool.false_ne_true named
  · next same => simp [← same, keyword] at named

/-- A type is told by its token. -/
theorem written_type_iff (lexed : Lexed tokens) {reserved : List String}
    (keywords : ∀ text ∈ reserved, Alphabet.isKeyword (utf8 text) = true) {name : Bytes} :
    (Phrase.type reserved).Written tokens name pos rest ↔
      ∃ token, tokens[pos]? = some token ∧
        (token.kind = .keyword ∧ isAmong reserved token.content = true ∨
          token.kind = .identifier) ∧ name = token.content ∧ rest = pos + 1 := by
  simp only [Phrase.Written, Phrase.type, spans_cons_iff, spans_nil_iff, Piece.type, At,
    Piece.Matches]
  constructor
  · rintro ⟨formed, ⟨token, here, kind, rfl⟩, moved⟩
    refine ⟨token, here, ?_, rfl, moved⟩
    by_cases among : isAmong reserved token.content = true
    · exact .inl ⟨kind.trans (if_pos among), among⟩
    · exact .inr (kind.trans (if_neg among))
  · rintro ⟨token, here, ⟨kind, among⟩ | kind, rfl, moved⟩
    · exact ⟨by simp [isType, among], ⟨token, here, kind.trans (if_pos among).symm, rfl⟩, moved⟩
    · have named := lexed.isIdentifier here kind
      have free : ¬ isAmong reserved token.content = true := by
        rw [isAmong_of_isIdentifier keywords named]
        exact Bool.false_ne_true
      exact ⟨by simp [isType, named], ⟨token, here, kind.trans (if_neg free).symm, rfl⟩, moved⟩

theorem keywords_variableTypes :
    ∀ text ∈ variableTypes, Alphabet.isKeyword (utf8 text) = true := by
  decide

theorem keywords_resultTypes :
    ∀ text ∈ resultTypes, Alphabet.isKeyword (utf8 text) = true := by
  decide

/-- One of some keywords, or a name. -/
theorem finds_typeToken_iff (lexed : Lexed tokens) {token : Token} :
    Finds (firstOf (variableTypes.map word ++ [identifier])) tokens pos token rest ↔
      tokens[pos]? = some token ∧
        (token.kind = .keyword ∧ isAmong variableTypes token.content = true ∨
          token.kind = .identifier) ∧ rest = pos + 1 := by
  have single : ∀ alternative ∈ variableTypes.map word ++ [identifier], ∀ token rest,
      Finds alternative tokens pos token rest →
        (tokens[pos]?).map id = some token ∧ rest = pos + 1 := by
    intro alternative member token rest found
    rcases List.mem_append.mp member with isWord | isName
    · exact single_of_mem_words alternative isWord token rest found
    · obtain rfl := List.mem_singleton.mp isName
      obtain ⟨here, _, moved⟩ := finds_ofKind_iff.mp found
      exact ⟨by simpa using here, moved⟩
  rw [finds_firstOf_iff_of_single single]
  simp only [List.mem_append, or_and_right, exists_or,
    exists_mem_words_iff lexed keywords_variableTypes, List.mem_singleton, exists_eq_left,
    identifier, finds_ofKind_iff, and_or_left]

/-- The rule for a type is exact: it finds what is written and nothing else. -/
theorem finds_type_iff (lexed : Lexed tokens) {name : Bytes} :
    Finds Production.type tokens pos name rest ↔
      (Phrase.type variableTypes).Written tokens name pos rest := by
  have unfolded : Production.type = do
      let token ← firstOf (variableTypes.map word ++ [identifier])
      return token.content := rfl
  simp only [unfolded, finds_bind_iff, finds_typeToken_iff lexed, finds_pure_iff,
    written_type_iff lexed keywords_variableTypes]
  constructor
  · rintro ⟨token, _, ⟨here, kind, rfl⟩, rfl, rfl⟩
    exact ⟨token, here, kind, rfl, rfl⟩
  · rintro ⟨token, here, kind, rfl, rfl⟩
    exact ⟨token, _, ⟨here, kind, rfl⟩, rfl, rfl⟩

/-- The type of a result may be `void`. -/
theorem finds_resultType_iff (lexed : Lexed tokens) {name : Bytes} :
    Finds (firstOf [Token.content <$> word "void", Production.type]) tokens pos name rest ↔
      (Phrase.type resultTypes).Written tokens name pos rest := by
  have single : ∀ alternative ∈ [Token.content <$> word "void", Production.type],
      ∀ name rest, Finds alternative tokens pos name rest →
        (tokens[pos]?).map Token.content = some name ∧ rest = pos + 1 := by
    simp only [List.forall_mem_cons, List.not_mem_nil, IsEmpty.forall_iff, implies_true,
      and_true, finds_map_iff, lexed.finds_keyword_iff "void" rfl, finds_type_iff lexed,
      written_type_iff lexed keywords_variableTypes]
    constructor
    · rintro _ _ ⟨token, ⟨here, _, rfl⟩, rfl⟩
      exact ⟨by simp [here], rfl⟩
    · rintro _ _ ⟨token, here, _, rfl, rfl⟩
      exact ⟨by simp [here], rfl⟩
  rw [finds_firstOf_iff_of_single single]
  simp only [List.mem_cons, List.not_mem_nil, or_false, exists_eq_or_imp, exists_eq_left,
    finds_map_iff, lexed.finds_keyword_iff "void" rfl, finds_type_iff lexed,
    written_type_iff lexed keywords_variableTypes, written_type_iff lexed keywords_resultTypes]
  constructor
  · rintro (⟨token, ⟨here, ⟨kind, content⟩, rfl⟩, rfl⟩ | ⟨token, here, kind, rfl, rfl⟩)
    · exact ⟨token, here, .inl ⟨kind, by rw [content]; rfl⟩, rfl, rfl⟩
    · refine ⟨token, here, kind.imp_left (And.imp_right fun among => ?_), rfl, rfl⟩
      obtain ⟨text, member, content⟩ := isAmong_iff.mp among
      exact isAmong_iff.mpr ⟨text, List.mem_cons_of_mem _ member, content⟩
  · rintro ⟨token, here, ⟨kind, among⟩ | kind, rfl, rfl⟩
    · obtain ⟨text, member, content⟩ := isAmong_iff.mp among
      rcases List.mem_cons.mp member with rfl | member
      · exact .inl ⟨token, ⟨here, ⟨kind, content.symm⟩, rfl⟩, rfl⟩
      · exact .inr ⟨token, here, .inl ⟨kind, isAmong_iff.mpr ⟨text, member, content⟩⟩, rfl, rfl⟩
    · exact .inr ⟨token, here, .inr kind, rfl, rfl⟩

/-! ## Names -/

theorem sound_identifier (lexed : Lexed tokens) :
    Phrase.nameToken.Sound tokens identifier := by
  intro pos token rest found
  obtain ⟨here, kind, rfl⟩ := finds_ofKind_iff.mp found
  exact ⟨lexed.isIdentifier here kind, ⟨token, here, kind, rfl⟩, rfl⟩

theorem complete_identifier : Phrase.nameToken.Complete tokens 0 anything identifier := by
  rintro tree pos rest _ ⟨_, ⟨token, here, kind, content⟩, rfl⟩ _
  refine ⟨token, finds_ofKind_iff.mpr ⟨here, kind, rfl⟩, ?_⟩
  simp only [Phrase.nameToken, content]

theorem finds_names_iff {names : List Bytes} :
    Finds Production.names tokens pos names rest ↔
      ∃ nodes, Finds (separatedBy identifier (utf8 ",")) tokens pos nodes rest ∧
        names = nodes.map Token.content := by
  simp only [Production.names, finds_bind_iff, finds_pure_iff]
  constructor
  · rintro ⟨nodes, _, found, rfl, rfl⟩
    exact ⟨nodes, found, rfl⟩
  · rintro ⟨nodes, found, rfl⟩
    exact ⟨nodes, rest, found, rfl, rfl⟩

theorem sound_names (lexed : Lexed tokens) :
    Phrase.names.Sound tokens Production.names := by
  intro pos names rest found
  obtain ⟨nodes, inside, rfl⟩ := finds_names_iff.mp found
  obtain ⟨nonempty, formed, spans⟩ := (sound_identifier lexed).commas lexed inside
  refine ⟨⟨by simpa using nonempty, List.forall_mem_map.mpr formed⟩, ?_⟩
  simp only [Phrase.names, List.map_map]
  exact spans

/-- A list of names goes on as long as commas do, so no comma may come behind it. -/
theorem complete_names (lexed : Lexed tokens) :
    Phrase.names.Complete tokens 0 notComma Production.names := by
  rintro names pos rest _ ⟨⟨nonempty, formed⟩, spans⟩ ahead
  -- The names as tokens, on any line.
  let trees : List Token := names.map fun name => ⟨.identifier, name, 0⟩
  have written : Phrase.nameToken.commas.Written tokens trees pos rest := by
    refine ⟨List.forall_mem_map.mpr formed, ?_⟩
    simp only [Phrase.commas, Phrase.nameToken, trees, List.map_map]
    exact spans
  obtain ⟨nodes, found, same⟩ := complete_identifier.commas lexed (fun _ => rfl)
    (by simpa [trees] using nonempty) pos.zero_le written (fun _ _ => rfl) ahead
  refine ⟨nodes.map Token.content, finds_names_iff.mpr ⟨nodes, found, rfl⟩, ?_⟩
  have sameContents := congrArg (List.map Token.content) same
  simpa [Phrase.nameToken, Phrase.names, trees, Function.comp_def] using sameContents

/-! ## Variables -/

theorem written_variableList_iff {list : VariableList} :
    Phrase.variableList.Written tokens list pos rest ↔
      ∃ middle last, (Phrase.type variableTypes).Written tokens list.type pos middle ∧
        Phrase.names.Written tokens list.names middle last ∧
        At tokens (.symbol ";") last ∧ rest = last + 1 := by
  simp only [Phrase.Written, Phrase.variableList, Phrase.type, Phrase.names,
    VariableList.wellFormed, VariableList.spelling, Bool.and_eq_true, Bool.not_eq_true',
    List.isEmpty_eq_false_iff, List.all_eq_true, spans_cons_iff, spans_append_iff,
    spans_nil_iff]
  constructor
  · rintro ⟨⟨⟨typeFormed, nonempty⟩, formed⟩, here, last, spans, ends, rfl⟩
    exact ⟨pos + 1, last, ⟨typeFormed, here, rfl⟩, ⟨⟨nonempty, formed⟩, spans⟩, ends, rfl⟩
  · rintro ⟨_, last, ⟨typeFormed, here, rfl⟩, ⟨⟨nonempty, formed⟩, spans⟩, ends, rfl⟩
    exact ⟨⟨⟨typeFormed, nonempty⟩, formed⟩, here, last, spans, ends, rfl⟩

/-- The list takes its line from the keyword in front of it, which is read before. -/
theorem finds_variableList_iff (lexed : Lexed tokens) {start : Token} {list : VariableList} :
    Finds (Production.variableList start) tokens pos list rest ↔
      ∃ middle last, (Phrase.type variableTypes).Written tokens list.type pos middle ∧
        Finds Production.names tokens middle list.names last ∧
        At tokens (.symbol ";") last ∧ list.line = start.line ∧ rest = last + 1 := by
  simp only [Production.variableList, finds_bind_iff, finds_type_iff lexed,
    lexed.finds_symbol_iff ";" rfl, finds_pure_iff]
  constructor
  · rintro ⟨type, middle, inType, names, last, inNames, semicolon, _, ⟨endsHere, ends, rfl⟩,
      rfl, rfl⟩
    exact ⟨middle, last, inType, inNames, ⟨semicolon, endsHere, ends⟩, rfl, rfl⟩
  · obtain ⟨type, names, line⟩ := list
    rintro ⟨middle, last, inType, inNames, ⟨semicolon, endsHere, ends⟩, rfl, rfl⟩
    exact ⟨type, middle, inType, names, last, inNames, semicolon, _, ⟨endsHere, ends, rfl⟩, rfl,
      rfl⟩

theorem sound_variableList (lexed : Lexed tokens) (start : Token) :
    Phrase.variableList.Sound tokens (Production.variableList start) := by
  intro pos list rest found
  obtain ⟨middle, last, inType, inNames, ends, _, rfl⟩ :=
    (finds_variableList_iff lexed).mp found
  exact written_variableList_iff.mpr
    ⟨middle, last, inType, sound_names lexed inNames, ends, rfl⟩

theorem complete_variableList (lexed : Lexed tokens) (start : Token) :
    Phrase.variableList.Complete tokens 0 anything (Production.variableList start) := by
  intro tree pos rest _ written _
  obtain ⟨middle, last, inType, inNames, ends, rfl⟩ := written_variableList_iff.mp written
  obtain ⟨names, found, same⟩ := complete_names lexed middle.zero_le inNames
    (ends.ahead fun _ => rfl)
  refine ⟨⟨tree.type, names, start.line⟩, ?_, ?_⟩
  · exact (finds_variableList_iff lexed).mpr ⟨middle, last, inType, found, ends, rfl, rfl⟩
  · simp only [Phrase.variableList, VariableList.withoutLines, VariableList.mk.injEq, true_and,
      and_true]
    exact same

def classVariableWords : List String :=
  ["static", "field"]

theorem keywords_classVariableWords :
    ∀ text ∈ classVariableWords, Alphabet.isKeyword (utf8 text) = true := by
  decide

def classVariableKind (word : Bytes) : ClassVariableKind :=
  if word = utf8 "field" then .field else .static

theorem name_classVariableKind :
    ∀ text ∈ classVariableWords, (classVariableKind (utf8 text)).name = text := by
  decide

/-- Each kind of class variable is read back from its keyword. -/
theorem classVariableKind_name (kind : ClassVariableKind) :
    kind.name ∈ classVariableWords ∧ classVariableKind (utf8 kind.name) = kind := by
  cases kind <;> decide

theorem written_classVariables_iff {declaration : ClassVariables} :
    Phrase.classVariables.Written tokens declaration pos rest ↔
      At tokens (.keyword declaration.kind.name) pos ∧
        Phrase.variableList.Written tokens declaration.list (pos + 1) rest := by
  simp only [Phrase.Written, Phrase.classVariables, Phrase.variableList,
    ClassVariables.spelling, spans_cons_iff]
  exact and_left_comm

/-- The keyword in front decides between static variables and fields. -/
theorem finds_classVariables_iff (lexed : Lexed tokens) {declaration : ClassVariables} :
    Finds Production.classVariables tokens pos declaration rest ↔
      ∃ start, tokens[pos]? = some start ∧
        (Piece.keyword declaration.kind.name).Matches start ∧
        Finds (Production.variableList start) tokens (pos + 1) declaration.list rest := by
  have unfolded : Production.classVariables = do
      let start ← firstOf (classVariableWords.map word)
      let list ← Production.variableList start
      return { kind := classVariableKind start.content, list } := rfl
  simp only [unfolded, finds_bind_iff, finds_words_iff lexed keywords_classVariableWords,
    finds_pure_iff]
  constructor
  · rintro ⟨start, _, ⟨here, ⟨kind, among⟩, rfl⟩, list, _, found, rfl, rfl⟩
    obtain ⟨text, member, content⟩ := isAmong_iff.mp among
    refine ⟨start, here, ⟨kind, ?_⟩, found⟩
    simp only [← content, name_classVariableKind text member]
  · obtain ⟨declared, list⟩ := declaration
    rintro ⟨start, here, ⟨kind, content⟩, found⟩
    obtain ⟨member, named⟩ := classVariableKind_name declared
    refine ⟨start, _, ⟨here, ⟨kind, ?_⟩, rfl⟩, list, rest, found, ?_, rfl⟩
    · exact isAmong_iff.mpr ⟨declared.name, member, content.symm⟩
    · rw [content, named]

/-- First words keep the repeated parts of a class apart: where variables end, subroutines begin. -/
theorem classVariables_startsWith :
    Phrase.classVariables.StartsWith tokens classVariableWords := by
  intro declaration pos rest written
  obtain ⟨starts, _⟩ := written_classVariables_iff.mp written
  exact ⟨declaration.kind.name, (classVariableKind_name _).1, starts⟩

theorem sound_classVariables (lexed : Lexed tokens) :
    Phrase.classVariables.Sound tokens Production.classVariables := by
  intro pos declaration rest found
  obtain ⟨start, here, starts, inside⟩ := (finds_classVariables_iff lexed).mp found
  exact written_classVariables_iff.mpr
    ⟨⟨start, here, starts⟩, sound_variableList lexed start inside⟩

theorem complete_classVariables (lexed : Lexed tokens) :
    Phrase.classVariables.Complete tokens 0 anything Production.classVariables := by
  intro tree pos rest _ written ahead
  obtain ⟨⟨start, here, starts⟩, inside⟩ := written_classVariables_iff.mp written
  obtain ⟨list, found, same⟩ := complete_variableList lexed start (Nat.zero_le _) inside ahead
  refine ⟨⟨tree.kind, list⟩, ?_, ?_⟩
  · exact (finds_classVariables_iff lexed).mpr ⟨start, here, starts, found⟩
  · simp only [Phrase.classVariables, ClassVariables.withoutLines, ClassVariables.mk.injEq,
      true_and]
    exact same

theorem finds_localVariables_iff (lexed : Lexed tokens) {list : VariableList} :
    Finds Production.localVariables tokens pos list rest ↔
      ∃ start, tokens[pos]? = some start ∧ (Piece.keyword "var").Matches start ∧
        Finds (Production.variableList start) tokens (pos + 1) list rest := by
  simp only [Production.localVariables, finds_bind_iff, lexed.finds_keyword_iff "var" rfl]
  constructor
  · rintro ⟨start, _, ⟨here, starts, rfl⟩, found⟩
    exact ⟨start, here, starts, found⟩
  · rintro ⟨start, here, starts, found⟩
    exact ⟨start, _, ⟨here, starts, rfl⟩, found⟩

theorem localVariables_startsWith : Phrase.localVariables.StartsWith tokens ["var"] := by
  rintro list pos rest ⟨_, starts, _⟩
  exact ⟨"var", by decide, starts⟩

theorem sound_localVariables (lexed : Lexed tokens) :
    Phrase.localVariables.Sound tokens Production.localVariables := by
  intro pos list rest found
  obtain ⟨start, here, starts, inside⟩ := (finds_localVariables_iff lexed).mp found
  obtain ⟨formed, spans⟩ := sound_variableList lexed start inside
  exact ⟨formed, ⟨start, here, starts⟩, spans⟩

theorem complete_localVariables (lexed : Lexed tokens) :
    Phrase.localVariables.Complete tokens 0 anything Production.localVariables := by
  rintro tree pos rest _ ⟨formed, ⟨start, here, starts⟩, spans⟩ ahead
  obtain ⟨list, found, same⟩ :=
    complete_variableList lexed start (Nat.zero_le _) ⟨formed, spans⟩ ahead
  exact ⟨list, (finds_localVariables_iff lexed).mpr ⟨start, here, starts, found⟩, same⟩

/-! ## Parameters -/

/-- A parameter is a type and a name. Neither needs a look ahead, so the rule is exact. -/
theorem finds_parameter_iff (lexed : Lexed tokens) {parameter : Parameter} :
    Finds Production.parameter tokens pos parameter rest ↔
      Phrase.parameter.Written tokens parameter pos rest := by
  simp only [Production.parameter, finds_bind_iff, finds_type_iff lexed, identifier,
    finds_ofKind_iff, finds_pure_iff]
  simp only [Phrase.Written, Phrase.type, Phrase.parameter, Parameter.wellFormed,
    Parameter.spelling, Bool.and_eq_true, spans_cons_iff, spans_nil_iff]
  constructor
  · rintro ⟨type, _, ⟨typeFormed, typeHere, rfl⟩, name, _, ⟨here, kind, rfl⟩, rfl, rfl⟩
    exact ⟨⟨typeFormed, lexed.isIdentifier here kind⟩, typeHere, ⟨name, here, kind, rfl⟩, rfl⟩
  · obtain ⟨type, name⟩ := parameter
    rintro ⟨⟨typeFormed, _⟩, typeHere, ⟨token, here, kind, rfl⟩, rfl⟩
    exact ⟨type, _, ⟨typeFormed, typeHere, rfl⟩, token, _, ⟨here, kind, rfl⟩, rfl, rfl⟩

/-- No parameter starts with a symbol. -/
theorem misses_parameter (lexed : Lexed tokens) {closing : String}
    (ahead : Ahead tokens (isSymbol closing) pos) : Misses Production.parameter tokens pos := by
  intro parameter last found
  simp only [Production.parameter, finds_bind_iff, finds_type_iff lexed,
    written_type_iff lexed keywords_variableTypes] at found
  obtain ⟨_, _, ⟨token, here, kind, _⟩, _⟩ := found
  have closes := ahead token here
  rcases kind with ⟨kind, _⟩ | kind <;> simp [isSymbol, kind] at closes

theorem sound_parameters (lexed : Lexed tokens) :
    Phrase.parameter.commas.Sound tokens (Phrase.optionalCommas Production.parameter) :=
  Phrase.Sound.optionalCommas (fun _ _ _ found => (finds_parameter_iff lexed).mp found) lexed

/-- The parameters of a subroutine are all read if the closing parenthesis is there. -/
theorem complete_parameters (lexed : Lexed tokens) :
    Phrase.parameter.commas.Complete tokens 0 (isSymbol ")")
      (Phrase.optionalCommas Production.parameter) := by
  have complete : Phrase.parameter.Complete tokens 0 anything Production.parameter :=
    fun tree _ _ _ written _ => ⟨tree, (finds_parameter_iff lexed).mpr written, rfl⟩
  exact complete.optionalCommas lexed (fun _ => rfl) (fun _ => rfl) (fun _ => rfl)
    fun _ ahead => misses_parameter lexed ahead

/-! ## Bodies -/

/-- All variables of a body come in front of its first statement. -/
theorem written_body_iff {body : SubroutineBody} :
    Phrase.body.Written tokens body pos rest ↔
      ∃ middle last, At tokens (.symbol "\x7b") pos ∧
        Phrase.localVariables.list.Written tokens body.locals (pos + 1) middle ∧
        Phrase.statement.list.Written tokens body.statements middle last ∧
        At tokens (.symbol "\x7d") last ∧ rest = last + 1 := by
  simp only [Phrase.Written, Phrase.body, Phrase.list, Phrase.localVariables, Phrase.behind,
    Phrase.variableList, Phrase.statement, SubroutineBody.wellFormed, SubroutineBody.spelling,
    Statement.allWellFormed_eq_all, Statement.allSpelling_eq_flatMap, Bool.and_eq_true,
    List.all_eq_true, spans_cons_iff, spans_append_iff, spans_nil_iff]
  constructor
  · rintro ⟨⟨localsFormed, formed⟩, opens, middle, inLocals, last, spans, closes, rfl⟩
    exact ⟨middle, last, opens, ⟨localsFormed, inLocals⟩, ⟨formed, spans⟩, closes, rfl⟩
  · rintro ⟨middle, last, opens, ⟨localsFormed, inLocals⟩, ⟨formed, spans⟩, closes, rfl⟩
    exact ⟨⟨localsFormed, formed⟩, opens, middle, inLocals, last, spans, closes, rfl⟩

theorem finds_subroutineBody_iff (lexed : Lexed tokens) {body : SubroutineBody} :
    Finds subroutineBody tokens pos body rest ↔
      ∃ middle last, At tokens (.symbol "\x7b") pos ∧
        Repeats Production.localVariables tokens (pos + 1) body.locals middle ∧
        Repeats Production.statement tokens middle body.statements last ∧
        At tokens (.symbol "\x7d") last ∧ rest = last + 1 := by
  simp only [subroutineBody, statements, finds_bind_iff, lexed.finds_symbol_iff "\x7b" rfl,
    finds_many_iff, lexed.finds_symbol_iff "\x7d" rfl, finds_pure_iff]
  constructor
  · rintro ⟨opening, _, ⟨opensHere, opens, rfl⟩, locals, middle, inLocals, statements, last,
      inStatements, closing, _, ⟨closesHere, closes, rfl⟩, rfl, rfl⟩
    exact ⟨middle, last, ⟨opening, opensHere, opens⟩, inLocals, inStatements,
      ⟨closing, closesHere, closes⟩, rfl⟩
  · obtain ⟨locals, statements⟩ := body
    rintro ⟨middle, last, ⟨opening, opensHere, opens⟩, inLocals, inStatements,
      ⟨closing, closesHere, closes⟩, rfl⟩
    exact ⟨opening, _, ⟨opensHere, opens, rfl⟩, locals, middle, inLocals, statements, last,
      inStatements, closing, _, ⟨closesHere, closes, rfl⟩, rfl, rfl⟩

theorem sound_subroutineBody (lexed : Lexed tokens) :
    Phrase.body.Sound tokens subroutineBody := by
  intro pos body rest found
  obtain ⟨middle, last, opens, inLocals, inStatements, closes, rfl⟩ :=
    (finds_subroutineBody_iff lexed).mp found
  exact written_body_iff.mpr ⟨middle, last, opens, (sound_localVariables lexed).list inLocals,
    (sound_statement lexed).list inStatements, closes, rfl⟩

/-- The locals end where a statement or the brace follows. -/
theorem complete_subroutineBody (lexed : Lexed tokens) :
    Phrase.body.Complete tokens 0 anything subroutineBody := by
  intro tree pos rest _ written _
  obtain ⟨middle, last, opens, inLocals, inStatements, closes, rfl⟩ :=
    written_body_iff.mp written
  have statementsStart : Phrase.statement.StartsWith tokens statementWords :=
    fun _ _ _ written => statement_starts written
  have noLocal : Ahead tokens (notAmong ["var"]) middle :=
    statementsStart.ahead_of_list (by decide) inStatements (closes.ahead fun _ => rfl)
  obtain ⟨locals, localsFound, sameLocals⟩ := (complete_localVariables lexed).list
    (fun _ _ _ _ => ⟨fun _ _ => rfl, by simp [Phrase.localVariables, Phrase.behind]⟩)
    (Nat.zero_le _) inLocals (fun _ _ => rfl)
    (localVariables_startsWith.misses (sound_localVariables lexed) noLocal)
  obtain ⟨nodes, nodesFound, sameNodes⟩ := complete_statements (sound_statement lexed)
    (complete_statement lexed) (Nat.zero_le _) inStatements
    (closes.ahead fun _ => by simp [isSymbol])
  refine ⟨⟨locals, nodes⟩, ?_, ?_⟩
  · exact (finds_subroutineBody_iff lexed).mpr
      ⟨middle, last, opens, localsFound, nodesFound, closes, rfl⟩
  · simp only [Phrase.body, SubroutineBody.withoutLines, Statement.allWithoutLines_eq_map,
      SubroutineBody.mk.injEq]
    exact ⟨sameLocals, sameNodes⟩

/-! ## Subroutines -/

def subroutineWords : List String :=
  ["constructor", "function", "method"]

theorem keywords_subroutineWords :
    ∀ text ∈ subroutineWords, Alphabet.isKeyword (utf8 text) = true := by
  decide

theorem name_subroutineKind :
    ∀ text ∈ subroutineWords, (subroutineKind (utf8 text)).name = text := by
  decide

theorem subroutineKind_name (kind : SubroutineKind) :
    kind.name ∈ subroutineWords ∧ subroutineKind (utf8 kind.name) = kind := by
  cases kind <;> decide

/-- A subroutine up to its parameters has fixed positions: the kind, the type of the result, the
name. -/
theorem written_subroutine_iff {tree : Subroutine} :
    Phrase.subroutine.Written tokens tree pos rest ↔
      ∃ middle, At tokens (.keyword tree.kind.name) pos ∧
        (Phrase.type resultTypes).Written tokens tree.result (pos + 1) (pos + 2) ∧
        isIdentifier tree.name = true ∧ At tokens (.name tree.name) (pos + 2) ∧
        Phrase.parameters.Written tokens tree.parameters (pos + 3) middle ∧
        Phrase.body.Written tokens tree.body middle rest := by
  simp only [Phrase.parameters, Phrase.written_enclosed_iff]
  simp only [Phrase.Written, Phrase.subroutine, Phrase.type, Phrase.commas, Phrase.parameter,
    Phrase.body, Subroutine.wellFormed, Subroutine.spelling, Bool.and_eq_true,
    List.all_eq_true, spans_cons_iff, spans_append_iff, spans_nil_iff]
  constructor
  · rintro ⟨⟨⟨⟨typeFormed, named⟩, parametersFormed⟩, bodyFormed⟩, starts, typeHere, nameHere,
      opens, middle, inParameters, closes, inBody⟩
    exact ⟨middle + 1, starts, ⟨typeFormed, typeHere, trivial⟩, named, nameHere,
      ⟨middle, opens, ⟨parametersFormed, inParameters⟩, closes, rfl⟩, bodyFormed, inBody⟩
  · rintro ⟨_, starts, ⟨typeFormed, typeHere, _⟩, named, nameHere,
      ⟨middle, opens, ⟨parametersFormed, inParameters⟩, closes, rfl⟩, bodyFormed, inBody⟩
    exact ⟨⟨⟨⟨typeFormed, named⟩, parametersFormed⟩, bodyFormed⟩, starts, typeHere, nameHere,
      opens, middle, inParameters, closes, inBody⟩

theorem finds_subroutine_iff (lexed : Lexed tokens) {tree : Subroutine} :
    Finds Production.subroutine tokens pos tree rest ↔
      ∃ start name middle, tokens[pos]? = some start ∧
        (Piece.keyword tree.kind.name).Matches start ∧
        (Phrase.type resultTypes).Written tokens tree.result (pos + 1) (pos + 2) ∧
        tokens[pos + 2]? = some name ∧ name.kind = .identifier ∧ tree.name = name.content ∧
        Finds (Phrase.between "(" ")" (Phrase.optionalCommas Production.parameter)) tokens
          (pos + 3) tree.parameters middle ∧
        Finds subroutineBody tokens middle tree.body rest ∧ tree.line = start.line := by
  have unfolded : firstOf [word "constructor", word "function", word "method"] =
      firstOf (subroutineWords.map word) := rfl
  simp only [Production.subroutine, unfolded, finds_bind_iff,
    finds_words_iff lexed keywords_subroutineWords, finds_resultType_iff lexed, identifier,
    finds_ofKind_iff, Phrase.finds_between_iff lexed "(" ")" rfl rfl,
    Phrase.finds_optionalCommas_iff, lexed.finds_symbol_iff "(" rfl,
    lexed.finds_symbol_iff ")" rfl, finds_pure_iff]
  constructor
  · rintro ⟨start, _, ⟨here, ⟨kind, among⟩, rfl⟩, result, _, ⟨resultFormed, resultHere, rfl⟩,
      name, _, ⟨nameHere, nameKind, rfl⟩, opening, _, ⟨opensHere, opens, rfl⟩, answer, middle,
      inParameters, closing, _, ⟨closesHere, closes, rfl⟩, body, _, inBody, rfl, rfl⟩
    obtain ⟨text, member, content⟩ := isAmong_iff.mp among
    refine ⟨start, name, middle + 1, here, ⟨kind, ?_⟩, ⟨resultFormed, resultHere, rfl⟩,
      nameHere, nameKind, rfl, ⟨middle, ⟨opening, opensHere, opens⟩, ⟨answer, inParameters, rfl⟩,
      ⟨closing, closesHere, closes⟩, rfl⟩, inBody, rfl⟩
    simp only [← content, name_subroutineKind text member]
  · obtain ⟨declared, result, named, parameters, body, line⟩ := tree
    rintro ⟨start, name, _, here, ⟨kind, content⟩, inResult, nameHere, nameKind, rfl,
      ⟨middle, ⟨opening, opensHere, opens⟩, ⟨answer, inParameters, rfl⟩,
      ⟨closing, closesHere, closes⟩, rfl⟩, inBody, rfl⟩
    obtain ⟨member, same⟩ := subroutineKind_name declared
    refine ⟨start, _, ⟨here, ⟨kind, isAmong_iff.mpr ⟨declared.name, member, content.symm⟩⟩, rfl⟩,
      result, _, inResult, name, _, ⟨nameHere, nameKind, rfl⟩, opening, _,
      ⟨opensHere, opens, rfl⟩, answer, middle, inParameters, closing, _,
      ⟨closesHere, closes, rfl⟩, body, rest, inBody, ?_, rfl⟩
    rw [content, same]

theorem subroutine_startsWith : Phrase.subroutine.StartsWith tokens subroutineWords := by
  intro tree pos rest written
  obtain ⟨_, starts, _⟩ := written_subroutine_iff.mp written
  exact ⟨tree.kind.name, (subroutineKind_name _).1, starts⟩

theorem sound_subroutine (lexed : Lexed tokens) :
    Phrase.subroutine.Sound tokens Production.subroutine := by
  intro pos tree rest found
  obtain ⟨start, name, middle, here, starts, inResult, nameHere, nameKind, named, inParameters,
    inBody, _⟩ := (finds_subroutine_iff lexed).mp found
  refine written_subroutine_iff.mpr ⟨middle, ⟨start, here, starts⟩, inResult, ?_,
    ⟨name, nameHere, nameKind, named.symm⟩,
    (sound_parameters lexed).enclosed lexed rfl rfl inParameters,
    sound_subroutineBody lexed inBody⟩
  rw [named]
  exact lexed.isIdentifier nameHere nameKind

theorem complete_subroutine (lexed : Lexed tokens) :
    Phrase.subroutine.Complete tokens 0 anything Production.subroutine := by
  intro tree pos rest _ written _
  obtain ⟨middle, ⟨start, here, starts⟩, inResult, _, ⟨name, nameHere, nameKind, named⟩,
    inParameters, inBody⟩ := written_subroutine_iff.mp written
  have completeParameters : Phrase.parameters.Complete tokens 0 anything
      (Phrase.between "(" ")" (Phrase.optionalCommas Production.parameter)) :=
    ((complete_parameters lexed).later (Nat.zero_le 1)).enclosed lexed rfl rfl
  obtain ⟨parameters, parametersFound, sameParameters⟩ :=
    completeParameters (Nat.zero_le _) inParameters fun _ _ => rfl
  obtain ⟨body, bodyFound, sameBody⟩ :=
    complete_subroutineBody lexed (Nat.zero_le _) inBody fun _ _ => rfl
  refine ⟨⟨tree.kind, tree.result, tree.name, parameters, body, start.line⟩, ?_, ?_⟩
  · exact (finds_subroutine_iff lexed).mpr ⟨start, name, middle, here, starts, inResult,
      nameHere, nameKind, named.symm, parametersFound, bodyFound, rfl⟩
  · simp only [Phrase.subroutine, Subroutine.withoutLines, Subroutine.mk.injEq, true_and,
      and_true]
    exact ⟨by simpa [Phrase.parameters, Phrase.enclosed, Phrase.commas, Phrase.parameter]
      using sameParameters, sameBody⟩

/-! ## Classes -/

/-- A class is its name and, between the braces, first variables and then subroutines. -/
theorem written_classTree_iff {tree : ClassTree} :
    Phrase.classTree.Written tokens tree pos rest ↔
      ∃ middle last, At tokens (.keyword "class") pos ∧ isIdentifier tree.name = true ∧
        At tokens (.name tree.name) (pos + 1) ∧ At tokens (.symbol "\x7b") (pos + 2) ∧
        Phrase.classVariables.list.Written tokens tree.declarations (pos + 3) middle ∧
        Phrase.subroutine.list.Written tokens tree.subroutines middle last ∧
        At tokens (.symbol "\x7d") last ∧ rest = last + 1 := by
  simp only [Phrase.Written, Phrase.classTree, Phrase.list, Phrase.classVariables,
    Phrase.subroutine, ClassTree.wellFormed, ClassTree.spelling, Bool.and_eq_true,
    List.all_eq_true, spans_cons_iff, spans_append_iff, spans_nil_iff]
  constructor
  · rintro ⟨⟨⟨named, declarationsFormed⟩, subroutinesFormed⟩, starts, nameHere, opens, middle,
      inDeclarations, last, inSubroutines, closes, rfl⟩
    exact ⟨middle, last, starts, named, nameHere, opens, ⟨declarationsFormed, inDeclarations⟩,
      ⟨subroutinesFormed, inSubroutines⟩, closes, rfl⟩
  · rintro ⟨middle, last, starts, named, nameHere, opens, ⟨declarationsFormed, inDeclarations⟩,
      ⟨subroutinesFormed, inSubroutines⟩, closes, rfl⟩
    exact ⟨⟨⟨named, declarationsFormed⟩, subroutinesFormed⟩, starts, nameHere, opens, middle,
      inDeclarations, last, inSubroutines, closes, rfl⟩

theorem finds_classTree_iff (lexed : Lexed tokens) {tree : ClassTree} :
    Finds Production.classTree tokens pos tree rest ↔
      ∃ start name middle last, tokens[pos]? = some start ∧
        (Piece.keyword "class").Matches start ∧ tokens[pos + 1]? = some name ∧
        name.kind = .identifier ∧ tree.name = name.content ∧
        At tokens (.symbol "\x7b") (pos + 2) ∧
        Repeats Production.classVariables tokens (pos + 3) tree.declarations middle ∧
        Repeats Production.subroutine tokens middle tree.subroutines last ∧
        At tokens (.symbol "\x7d") last ∧ tree.line = start.line ∧ rest = last + 1 := by
  simp only [Production.classTree, finds_bind_iff, lexed.finds_keyword_iff "class" rfl,
    identifier, finds_ofKind_iff, lexed.finds_symbol_iff "\x7b" rfl, finds_many_iff,
    lexed.finds_symbol_iff "\x7d" rfl, finds_pure_iff]
  constructor
  · rintro ⟨start, _, ⟨here, starts, rfl⟩, name, _, ⟨nameHere, nameKind, rfl⟩, opening, _,
      ⟨opensHere, opens, rfl⟩, declarations, middle, inDeclarations, subroutines, last,
      inSubroutines, closing, _, ⟨closesHere, closes, rfl⟩, rfl, rfl⟩
    exact ⟨start, name, middle, last, here, starts, nameHere, nameKind, rfl,
      ⟨opening, opensHere, opens⟩, inDeclarations, inSubroutines,
      ⟨closing, closesHere, closes⟩, rfl, rfl⟩
  · obtain ⟨named, declarations, subroutines, line⟩ := tree
    rintro ⟨start, name, middle, last, here, starts, nameHere, nameKind, rfl,
      ⟨opening, opensHere, opens⟩, inDeclarations, inSubroutines,
      ⟨closing, closesHere, closes⟩, rfl, rfl⟩
    exact ⟨start, _, ⟨here, starts, rfl⟩, name, _, ⟨nameHere, nameKind, rfl⟩, opening, _,
      ⟨opensHere, opens, rfl⟩, declarations, middle, inDeclarations, subroutines, last,
      inSubroutines, closing, _, ⟨closesHere, closes, rfl⟩, rfl, rfl⟩

/-- What is read as a class is a well-formed class, spelled by the tokens read. -/
theorem sound_classTree (lexed : Lexed tokens) :
    Phrase.classTree.Sound tokens Production.classTree := by
  intro pos tree rest found
  obtain ⟨start, name, middle, last, here, starts, nameHere, nameKind, named, opens,
    inDeclarations, inSubroutines, closes, _, rfl⟩ := (finds_classTree_iff lexed).mp found
  refine written_classTree_iff.mpr ⟨middle, last, ⟨start, here, starts⟩, ?_,
    ⟨name, nameHere, nameKind, named.symm⟩, opens,
    (sound_classVariables lexed).list inDeclarations,
    (sound_subroutine lexed).list inSubroutines, closes, rfl⟩
  rw [named]
  exact lexed.isIdentifier nameHere nameKind

/-- The variables end where a subroutine or the brace follows, the subroutines where the
brace follows. -/
theorem complete_classTree (lexed : Lexed tokens) :
    Phrase.classTree.Complete tokens 0 anything Production.classTree := by
  intro tree pos rest _ written _
  obtain ⟨middle, last, ⟨start, here, starts⟩, _, ⟨name, nameHere, nameKind, named⟩, opens,
    inDeclarations, inSubroutines, closes, rfl⟩ := written_classTree_iff.mp written
  have noVariables : Ahead tokens (notAmong classVariableWords) middle :=
    subroutine_startsWith.ahead_of_list (by decide) inSubroutines (closes.ahead fun _ => rfl)
  have noSubroutine : Ahead tokens (notAmong subroutineWords) last :=
    closes.ahead fun _ => rfl
  obtain ⟨declarations, declarationsFound, sameDeclarations⟩ :=
    (complete_classVariables lexed).list
      (fun _ _ _ _ => ⟨fun _ _ => rfl, by simp [Phrase.classVariables, ClassVariables.spelling]⟩)
      (Nat.zero_le _) inDeclarations (fun _ _ => rfl)
      (classVariables_startsWith.misses (sound_classVariables lexed) noVariables)
  obtain ⟨subroutines, subroutinesFound, sameSubroutines⟩ :=
    (complete_subroutine lexed).list
      (fun _ _ _ _ => ⟨fun _ _ => rfl, by simp [Phrase.subroutine, Subroutine.spelling]⟩)
      (Nat.zero_le _) inSubroutines (fun _ _ => rfl)
      (subroutine_startsWith.misses (sound_subroutine lexed) noSubroutine)
  refine ⟨⟨tree.name, declarations, subroutines, start.line⟩, ?_, ?_⟩
  · exact (finds_classTree_iff lexed).mpr ⟨start, name, middle, last, here, starts, nameHere,
      nameKind, named.symm, opens, declarationsFound, subroutinesFound, closes, rfl, rfl⟩
  · simp only [Phrase.classTree, ClassTree.withoutLines, ClassTree.mk.injEq, true_and, and_true]
    exact ⟨sameDeclarations, sameSubroutines⟩

/-! ## All tokens of a source -/

/-- A parse succeeds if the rule for a class finds something and no token is left behind it. -/
theorem parseClass_eq_ok_iff_finds {tree : ClassTree} :
    parseClass tokens = .ok tree ↔
      ∃ rest, Finds Production.classTree tokens 0 tree rest ∧ tokens.size ≤ rest := by
  cases outcome : Production.classTree (Cursor.ofTokens tokens) with
  | missed furthest =>
      have misses : Misses Production.classTree tokens 0 := misses_iff.mpr ⟨furthest, outcome⟩
      simp only [parseClass, outcome, reduceCtorEq, false_iff]
      rintro ⟨rest, found, _⟩
      exact misses tree rest found
  | matched node last furthest =>
      have finds : Finds Production.classTree tokens 0 node last := ⟨furthest, outcome⟩
      simp only [parseClass, outcome]
      split_ifs with left
      · simp only [false_iff]
        rintro ⟨rest, found, atEnd⟩
        obtain ⟨_, rfl⟩ := finds.unique found
        omega
      · simp only [Except.ok.injEq]
        constructor
        · rintro rfl
          exact ⟨last, finds, by omega⟩
        · rintro ⟨rest, found, _⟩
          exact (finds.unique found).1

/-- A well-formed class is written with all of the tokens exactly if it is read from them,
lines aside. -/
theorem parse_written_iff (lexed : Lexed tokens) (tree : ClassTree) :
    (∃ node, parseClass tokens = .ok node ∧ node.withoutLines = tree.withoutLines) ↔
      Phrase.classTree.Written tokens tree 0 tokens.size := by
  constructor
  · rintro ⟨node, parsed, same⟩
    obtain ⟨rest, found, atEnd⟩ := parseClass_eq_ok_iff_finds.mp parsed
    obtain ⟨formed, spans⟩ := sound_classTree lexed found
    obtain rfl : rest = tokens.size :=
      le_antisymm (spans.moves (by simp [Phrase.classTree, ClassTree.spelling])).2 atEnd
    refine ⟨?_, ?_⟩
    · simp only [Phrase.classTree] at formed ⊢
      rw [← tree.wellFormed_withoutLines, ← same, node.wellFormed_withoutLines]
      exact formed
    · simp only [Phrase.classTree] at spans ⊢
      rw [← tree.spelling_withoutLines, ← same, node.spelling_withoutLines]
      exact spans
  · intro written
    obtain ⟨node, found, same⟩ := complete_classTree lexed le_rfl written fun _ _ => rfl
    exact ⟨node, parseClass_eq_ok_iff_finds.mpr ⟨_, found, le_rfl⟩, same⟩

end Classes

/-- The tokens of a source are read as a class exactly if they are spelled like it, and
fail to be read exactly if they are spelled like no class that the grammar has. -/
theorem parseClass_eq_ok_iff {source : Bytes} {tokens : Array Token}
    (read : tokenize source = .ok tokens) :
    (∀ tree : ClassTree,
      (∃ node, parseClass (withoutComments tokens) = .ok node ∧
        node.withoutLines = tree.withoutLines) ↔
      tree.wellFormed = true ∧
        List.Forall₂ Piece.Matches tree.spelling (withoutComments tokens).toList) ∧
    ((∃ diagnostic, parseClass (withoutComments tokens) = .error diagnostic) ↔
      ∀ tree : ClassTree, tree.wellFormed = true →
        ¬ List.Forall₂ Piece.Matches tree.spelling (withoutComments tokens).toList) := by
  have exactly (tree : ClassTree) :
      (∃ node, parseClass (withoutComments tokens) = .ok node ∧
        node.withoutLines = tree.withoutLines) ↔
      tree.wellFormed = true ∧
        List.Forall₂ Piece.Matches tree.spelling (withoutComments tokens).toList := by
    rw [parse_written_iff (lexed_of_tokenize read) tree]
    exact and_congr_right fun _ => spans_to_end_iff (Nat.zero_le _)
  refine ⟨exactly, ?_⟩
  cases parsed : parseClass (withoutComments tokens) with
  | error diagnostic =>
      simp only [parsed, reduceCtorEq, false_and, exists_false, false_iff, not_and] at exactly
      exact iff_of_true ⟨diagnostic, rfl⟩ exactly
  | ok node =>
      obtain ⟨formed, spelled⟩ := (exactly node).mp ⟨node, parsed, rfl⟩
      exact iff_of_false (by simp) fun none => none node formed spelled

/-- A class with a comment, and a number with a leading zero. -/
def answerSource : Bytes :=
  utf8 "class A\x7bfunction int f()\x7breturn 07;//x\n\x7d\x7d"

def answerTokens : Array Token :=
  #[⟨.keyword, utf8 "class", 1⟩, ⟨.identifier, utf8 "A", 1⟩, ⟨.symbol, utf8 "\x7b", 1⟩,
    ⟨.keyword, utf8 "function", 1⟩, ⟨.keyword, utf8 "int", 1⟩, ⟨.identifier, utf8 "f", 1⟩,
    ⟨.symbol, utf8 "(", 1⟩, ⟨.symbol, utf8 ")", 1⟩, ⟨.symbol, utf8 "\x7b", 1⟩,
    ⟨.keyword, utf8 "return", 1⟩, ⟨.integer, utf8 "07", 1⟩, ⟨.symbol, utf8 ";", 1⟩,
    ⟨.comment, utf8 "//x", 1⟩, ⟨.symbol, utf8 "\x7d", 2⟩, ⟨.symbol, utf8 "\x7d", 2⟩]

def answerClass : ClassTree where
  name := utf8 "A"
  declarations := []
  subroutines := [{
    kind := .function
    result := utf8 "int"
    name := utf8 "f"
    parameters := []
    body := { locals := [], statements := [.giveBack (some (.mk (.integer 7 0) [])) 0] }
    line := 0 }]
  line := 0

/-- A small class with a line comment in it, parsed from its source. -/
theorem answer_parses :
    tokenize answerSource = .ok answerTokens ∧
      ∃ node, parseClass (withoutComments answerTokens) = .ok node ∧
        node.withoutLines = answerClass.withoutLines := by
  have read : tokenize answerSource = .ok answerTokens := by decide +kernel
  exact ⟨read, ((parseClass_eq_ok_iff read).1 answerClass).mpr
    ⟨by decide +kernel, by decide +kernel⟩⟩

end Jack
