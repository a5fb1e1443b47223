import Jack.Compilation
import Jack.Proofs.Grammar.Classes

/-!
Contract: what holds of every tree that is read from a source.

Owns: that such a tree is well formed, that its numbers can be pushed as constants, and
that its spelling is not longer than the source.

Does not own: how it is read.
-/

set_option autoImplicit false

namespace Jack

/-- A number that can be pushed as a constant; all else can stand in a spelling. -/
def Piece.Fits : Piece → Prop
  | .number value => 0 ≤ value ∧ value ≤ Machine.maxConstant
  | .exact .. => True

/-- There are no more tokens than bytes, since every token takes one at least. -/
theorem Tiled.length_le {before rest : Bytes} {tokens : List Token}
    (tiled : Tiled before rest tokens) : tokens.length ≤ rest.length := by
  induction tiled with
  | finish => exact Nat.zero_le _
  | token _ lexeme _ _ inductionHypothesis =>
      obtain ⟨first, others, starts, _⟩ := lexeme.source_starts
      simp only [List.length_append, List.length_cons, starts]
      omega

/-- A source has no more tokens than bytes. -/
theorem size_le_of_tokenize {source : Bytes} {tokens : Array Token}
    (scanned : tokenize source = .ok tokens) :
    (withoutComments tokens).size ≤ source.length := by
  have kept : (withoutComments tokens).size ≤ tokens.size := Array.size_filter_le
  have short : tokens.toList.length ≤ source.length := (tiled_of_tokenize scanned).length_le
  rw [Array.length_toList] at short
  omega

/-- A number in a source is small enough to be pushed as a constant. -/
theorem Lexed.fits {tokens : Array Token} (lexed : Lexed tokens) {piece : Piece}
    {token : Token} (member : token ∈ tokens) (matched : piece.Matches token) : piece.Fits := by
  cases piece with
  | exact => trivial
  | number value =>
      obtain ⟨kind, same⟩ := matched
      obtain ⟨after, lexeme⟩ := lexed.lexeme token member
      obtain ⟨tokenKind, content, line⟩ := token
      obtain rfl : tokenKind = .integer := kind
      cases lexeme with
      | integer _ _ inRange =>
          simp only [Token.value] at same
          simp only [Piece.Fits, Machine.maxConstant]
          simp only [maxInteger] at inRange
          omega

/-- What holds of a tree that is read from a source of this length. -/
structure ClassTree.ReadFrom (tree : ClassTree) (length : Nat) : Prop where
  wellFormed : tree.wellFormed = true
  fits : ∀ piece ∈ tree.spelling, piece.Fits
  short : tree.spelling.length ≤ length

namespace ClassTree.ReadFrom

variable {tree : ClassTree} {length : Nat} {subroutine : Subroutine}

theorem subroutine_wellFormed (readFrom : tree.ReadFrom length)
    (member : subroutine ∈ tree.subroutines) : subroutine.wellFormed = true := by
  have wellFormed := readFrom.wellFormed
  simp only [ClassTree.wellFormed, Bool.and_eq_true, List.all_eq_true] at wellFormed
  exact wellFormed.2 subroutine member

theorem statements_wellFormed (readFrom : tree.ReadFrom length)
    (member : subroutine ∈ tree.subroutines) :
    Statement.allWellFormed subroutine.body.statements = true := by
  have wellFormed := readFrom.subroutine_wellFormed member
  simp only [Subroutine.wellFormed, SubroutineBody.wellFormed, Bool.and_eq_true] at wellFormed
  exact wellFormed.2.2

theorem statements_fit (readFrom : tree.ReadFrom length)
    (member : subroutine ∈ tree.subroutines) :
    ∀ piece ∈ Statement.allSpelling subroutine.body.statements, piece.Fits := by
  intro piece inBody
  have inSubroutine : piece ∈ subroutine.spelling := by
    simp [Subroutine.spelling, SubroutineBody.spelling, inBody]
  apply readFrom.fits
  simp only [ClassTree.spelling, List.mem_cons, List.mem_append, List.mem_flatMap]
  exact .inr (.inr (.inr (.inr (.inl ⟨subroutine, member, inSubroutine⟩))))

end ClassTree.ReadFrom

/-- All that is known of a tree read from a source, without the tokens. -/
theorem readFrom_of_readClass {source : Bytes} {tree : ClassTree}
    (read : readClass source = .ok tree) : tree.ReadFrom source.length := by
  rw [readClass] at read
  cases scanned : tokenize source with
  | error diagnostic =>
      rw [scanned] at read
      cases read
  | ok tokens =>
      rw [scanned] at read
      have parsed : parseClass (withoutComments tokens) = .ok tree := read
      have lexed := lexed_of_tokenize scanned
      obtain ⟨formed, spans⟩ := (parse_written_iff lexed tree).mp ⟨tree, parsed, rfl⟩
      have spelled := (spans_to_end_iff (Nat.zero_le _)).mp spans
      rw [List.drop_zero] at spelled
      refine ⟨formed, ?_, ?_⟩
      · intro piece member
        obtain ⟨position, inSpelling, rfl⟩ := List.getElem_of_mem member
        have inTokens : position < (withoutComments tokens).toList.length := by
          rwa [← spelled.length_eq]
        have matched := spelled.get inSpelling inTokens
        exact lexed.fits (Array.mem_toList_iff.mp (List.get_mem _ _)) matched
      · have sizes := spelled.length_eq
        have short := size_le_of_tokenize scanned
        rw [Array.length_toList] at sizes
        exact sizes.trans_le short

end Jack
