import Jack.Proofs.Grammar.Sources
import Jack.Proofs.Layout
import Jack.Proofs.Text.Numeral

/-!
Contract: trees that are written out are read again.

Owns: which pieces of a spelling can be printed, the source with a space behind each piece,
and that this source is read as the tree and compiles to its code.

Does not own: spellings, and the grammar.
-/

set_option autoImplicit false

namespace Jack

/-- A lexeme stays on its line, unless it is a comment. -/
theorem Lexeme.lineBreaks_source {token : Token} {after : Bytes}
    (lexeme : Lexeme token.kind token.content after) (isCode : token.isCode = true) :
    Bytes.lineBreaks token.source = 0 := by
  have unbroken {text : Bytes} (inLine : ∀ byte ∈ text, byte ≠ Bytes.lineBreak) :
      Bytes.lineBreaks text = 0 :=
    List.count_eq_zero.mpr fun member => inLine _ member rfl
  obtain ⟨kind, content, line⟩ := token
  cases lexeme with
  | keyword word | identifier word =>
      exact unbroken fun byte member =>
        (Alphabet.class_of_continuesWord byte (word.continuesWord byte member)).2
  | integer _ decimal =>
      exact unbroken fun byte member => (Alphabet.class_of_isDigit byte (decimal byte member)).2
  | string inside =>
      refine unbroken fun byte member => ?_
      simp only [Token.source, List.cons_append, List.mem_cons, List.mem_append,
        List.not_mem_nil, or_false] at member
      rcases member with rfl | inContent | rfl
      · decide
      · exact (inside byte inContent).2.1
      · decide
  | lineComment | blockComment => cases isCode
  | symbol known =>
      exact unbroken (List.forall_mem_singleton.mpr
        (Alphabet.class_of_isSymbol _ known).2.2.2.2)

namespace Piece

/-- The token that a piece is printed as, on the first line. A number has no leading
zeros. -/
def token : Piece → Token
  | exact kind content => ⟨kind, content, 1⟩
  | number value => ⟨.integer, Numeral.decimal value.toNat, 1⟩

/-- Whether a piece can be printed so that it is read again. -/
def isPrintable : Piece → Bool
  | exact .keyword content => Alphabet.isKeyword content
  | exact .identifier content => isIdentifier content
  | exact .string content =>
      content.all fun byte => byte != ascii '"' && byte != ascii '\n' && byte != ascii '\r'
  | exact .symbol content => content.length == 1 && content.all Alphabet.isSymbol
  | exact .integer _ | exact .comment _ => false
  | number value => 0 ≤ value && value ≤ maxInteger

variable {piece : Piece}

/-- What holds of a space holds of what comes next. -/
theorem next_of_space {test : UInt8 → Prop} (ofSpace : test (ascii ' ')) (after : Bytes) :
    ∀ byte ∈ (ascii ' ' :: after).head?, test byte := by
  simpa using ofSpace

/-- A keyword is a word. -/
theorem isWord_of_isKeyword {content : Bytes} (reserved : Alphabet.isKeyword content = true)
    (after : Bytes) :
    ∃ first rest, content = first :: rest ∧ IsWord first rest (ascii ' ' :: after) := by
  have all : ∀ word ∈ Alphabet.keywords, word ≠ [] ∧
      word.all Alphabet.continuesWord = true ∧ word.head?.all Alphabet.startsWord = true := by
    decide
  obtain ⟨nonempty, continues, starts⟩ := all content (List.contains_iff_mem.mp reserved)
  obtain ⟨first, rest, rfl⟩ := List.exists_cons_of_ne_nil nonempty
  refine ⟨first, rest, rfl, ⟨starts, fun byte member => ?_, next_of_space (by decide) after⟩⟩
  exact List.all_eq_true.mp continues byte (List.mem_cons_of_mem _ member)

/-- With a space behind it, a printed piece is a lexeme. -/
theorem lexeme_token (printable : piece.isPrintable = true) (after : Bytes) :
    Lexeme piece.token.kind piece.token.content (ascii ' ' :: after) := by
  cases piece with
  | number value =>
      simp only [isPrintable, Bool.and_eq_true, decide_eq_true_eq] at printable
      refine .integer (Numeral.decimal_ne_nil _) ?_ ?_ (next_of_space (by decide) after)
      · exact fun byte member => Numeral.isDigit_of_mem_decimal member
      · rw [token, Numeral.valueOf_decimal]
        omega
  | exact kind content =>
      cases kind with
      | keyword =>
          obtain ⟨first, rest, rfl, word⟩ := isWord_of_isKeyword printable after
          exact .keyword word printable
      | identifier =>
          cases content with
          | nil => cases printable
          | cons first rest =>
              simp only [isPrintable, isIdentifier, Bool.and_eq_true, List.all_eq_true,
                Bool.not_eq_true'] at printable
              obtain ⟨⟨starts, continues⟩, free⟩ := printable
              exact .identifier ⟨starts, continues, next_of_space (by decide) after⟩ free
      | string =>
          refine .string fun byte member => ?_
          simpa [and_assoc] using List.all_eq_true.mp printable byte member
      | symbol =>
          simp only [isPrintable, Bool.and_eq_true, beq_iff_eq] at printable
          obtain ⟨byte, rfl⟩ := List.length_eq_one_iff.mp printable.1
          exact .symbol (by simpa using printable.2) fun _ => next_of_space (by decide) after
      | integer | comment => cases printable

theorem matches_token (printable : piece.isPrintable = true) : piece.Matches piece.token := by
  cases piece with
  | exact kind content => exact ⟨rfl, rfl⟩
  | number value =>
      simp only [isPrintable, Bool.and_eq_true, decide_eq_true_eq] at printable
      refine ⟨rfl, ?_⟩
      rw [token, Token.value, Numeral.valueOf_decimal]
      omega

theorem isCode_token (printable : piece.isPrintable = true) : piece.token.isCode = true := by
  cases piece with
  | number value => rfl
  | exact kind content =>
      cases kind with
      | comment => cases printable
      | keyword | symbol | identifier | integer | string => rfl

end Piece

/-- The source with a space behind each piece. -/
def printed (spelling : Spelling) : Bytes :=
  spelling.flatMap fun piece => piece.token.source ++ [ascii ' ']

variable {spelling : Spelling} {tree : ClassTree}

/-- Printed pieces are tokens on one line. -/
theorem tiled_printed (printable : ∀ piece ∈ spelling, piece.isPrintable = true) {before : Bytes}
    (unbroken : Bytes.lineBreaks before = 0) :
    Tiled before (printed spelling) (spelling.map Piece.token) := by
  induction spelling generalizing before with
  | nil => exact .finish (List.forall_mem_nil _)
  | cons piece rest inductionHypothesis =>
      obtain ⟨first, others⟩ := List.forall_mem_cons.mp printable
      have lexeme := piece.lexeme_token first (printed rest)
      have line : piece.token.line = 1 + Bytes.lineBreaks (before ++ []) := by
        rw [List.append_nil, unbroken]
        cases piece <;> rfl
      have inLine := lexeme.lineBreaks_source (piece.isCode_token first)
      have behind : Bytes.lineBreaks (before ++ [] ++ piece.token.source ++ [ascii ' ']) = 0 := by
        rw [Bytes.lineBreaks] at unbroken inLine ⊢
        rw [List.count_append, List.count_append, List.append_nil, unbroken, inLine]
        decide
      have space : ∀ byte ∈ [ascii ' '], Alphabet.isSpace byte = true :=
        List.forall_mem_singleton.mpr (by decide)
      have tiled := Tiled.token (List.forall_mem_nil _) lexeme line
        (Tiled.of_skipped space (inductionHypothesis others behind))
      rw [printed, List.flatMap_cons, List.append_assoc]
      exact tiled

/-- What is printed is read as the tokens that were printed. -/
theorem tokenize_printed (printable : ∀ piece ∈ spelling, piece.isPrintable = true) :
    tokenize (printed spelling) = .ok (spelling.map Piece.token).toArray := by
  rw [tokenize, Scanner.run_eq_ok_iff (Scanner.ofSource _) [] rfl]
  exact ⟨_, rfl, tiled_printed printable rfl⟩

/-- A well-formed tree that is printed is read as this tree, lines aside. -/
theorem readClass_printed (wellFormed : tree.wellFormed = true)
    (printable : ∀ piece ∈ tree.spelling, piece.isPrintable = true) :
    ∃ node, readClass (printed tree.spelling) = .ok node ∧
      node.withoutLines = tree.withoutLines := by
  have scanned := tokenize_printed printable
  have noComments : withoutComments (tree.spelling.map Piece.token).toArray =
      (tree.spelling.map Piece.token).toArray := by
    rw [withoutComments, List.filter_toArray]
    congr 1
    rw [List.filter_eq_self, List.forall_mem_map]
    exact fun piece member => piece.isCode_token (printable piece member)
  have spelled : List.Forall₂ Piece.Matches tree.spelling (tree.spelling.map Piece.token) := by
    rw [List.forall₂_map_right_iff, List.forall₂_same]
    exact fun piece member => piece.matches_token (printable piece member)
  have lexed := lexed_of_tokenize scanned
  rw [noComments] at lexed
  obtain ⟨node, parsed, same⟩ := (parse_written_iff lexed tree).mpr
    ⟨wellFormed, (spans_to_end_iff (Nat.zero_le _)).mpr spelled⟩
  refine ⟨node, ?_, same⟩
  rw [readClass, scanned]
  show parseClass (withoutComments _) = .ok node
  rw [noComments, parsed]

/-- So it compiles to the code of the tree. -/
theorem compileClass_printed {compiled : CompiledClass} (wellFormed : tree.wellFormed = true)
    (printable : ∀ piece ∈ tree.spelling, piece.isPrintable = true)
    (lowered : lowerClass tree = .ok compiled) :
    compileClass (printed tree.spelling) = .ok compiled := by
  obtain ⟨node, read, same⟩ := readClass_printed wellFormed printable
  have alike := lowerClass_of_withoutLines_eq same
  rw [lowered] at alike
  rw [compileClass, read]
  show lowerClass node = .ok compiled
  generalize lowerClass node = result at alike
  cases alike with
  | value => rfl

end Jack
