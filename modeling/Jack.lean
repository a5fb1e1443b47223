import Jack.Binding
import Jack.Cbor.Decoder
import Jack.Cbor.Item
import Jack.Compilation
import Jack.Diagnostic
import Jack.Grammar.Cursor
import Jack.Grammar.Pattern
import Jack.Grammar.Rule
import Jack.Lowering.Code
import Jack.Lowering.Context
import Jack.Lowering.Emission
import Jack.Machine.Bundle
import Jack.Machine.Instruction
import Jack.Machine.Listing
import Jack.Main
import Jack.Project.Build
import Jack.Project.CommandLine
import Jack.Project.Config
import Jack.Project.FileTree
import Jack.Project.Files
import Jack.Project.Path
import Jack.Proofs.Binding
import Jack.Proofs.Binding.Histories
import Jack.Proofs.Bundling
import Jack.Proofs.Cbor.RoundTrip
import Jack.Proofs.Diagnostics
import Jack.Proofs.Grammar.Alternatives
import Jack.Proofs.Grammar.Classes
import Jack.Proofs.Grammar.Expressions
import Jack.Proofs.Grammar.Finds
import Jack.Proofs.Grammar.Locality
import Jack.Proofs.Grammar.Phrases
import Jack.Proofs.Grammar.Places
import Jack.Proofs.Grammar.Printing
import Jack.Proofs.Grammar.Progress
import Jack.Proofs.Grammar.Sources
import Jack.Proofs.Grammar.Statements
import Jack.Proofs.Grammar.SyntaxErrors
import Jack.Proofs.Grammar.TwoRuns
import Jack.Proofs.Grammar.Viability
import Jack.Proofs.Layout
import Jack.Proofs.Lowering.Accounting
import Jack.Proofs.Lowering.ArgumentPositions
import Jack.Proofs.Lowering.Blocks
import Jack.Proofs.Lowering.Conditions
import Jack.Proofs.Lowering.Emits
import Jack.Proofs.Lowering.ExpressionFrame
import Jack.Proofs.Lowering.ExpressionMeaning
import Jack.Proofs.Lowering.Flawless
import Jack.Proofs.Lowering.Independence
import Jack.Proofs.Lowering.Instructions
import Jack.Proofs.Lowering.JumpTargets
import Jack.Proofs.Lowering.Labels
import Jack.Proofs.Lowering.Legibility
import Jack.Proofs.Lowering.Lines
import Jack.Proofs.Lowering.Places
import Jack.Proofs.Lowering.Refusals
import Jack.Proofs.Lowering.Renaming
import Jack.Proofs.Lowering.Settings
import Jack.Proofs.Lowering.Slots
import Jack.Proofs.Lowering.StackHeight
import Jack.Proofs.Lowering.StatementMeaning
import Jack.Proofs.Machine.Bundle
import Jack.Proofs.Machine.Execution
import Jack.Proofs.Machine.LineGrammar
import Jack.Proofs.Machine.Listing
import Jack.Proofs.Machine.Normalisation
import Jack.Proofs.Machine.Reading
import Jack.Proofs.Project.Discovery
import Jack.Proofs.Project.Failures
import Jack.Proofs.Project.FileTree
import Jack.Proofs.Project.Saving
import Jack.Proofs.Project.Steps
import Jack.Proofs.Text.Blank
import Jack.Proofs.Text.Bytes
import Jack.Proofs.Text.Numeral
import Jack.Proofs.Text.Utf8
import Jack.Proofs.Token.Faults
import Jack.Proofs.Token.Histories
import Jack.Proofs.Token.Joining
import Jack.Proofs.Token.Lexeme
import Jack.Proofs.Token.Tiling
import Jack.Proofs.Tree.Evaluation
import Jack.Proofs.Tree.Mentions
import Jack.Proofs.Tree.Places
import Jack.Proofs.Tree.Renaming
import Jack.Proofs.Tree.Spelling
import Jack.Text.Blank
import Jack.Text.Bytes
import Jack.Text.LetterCase
import Jack.Text.Numeral
import Jack.Text.Printable
import Jack.Text.Quoted
import Jack.Text.Utf8
import Jack.Token
import Jack.Token.Alphabet
import Jack.Token.Scanner
import Jack.Toml.Document
import Jack.Toml.Entry
import Jack.Toml.Quoted
import Jack.Toml.Reader
import Jack.Toml.Scalar
import Jack.Tree
import Jack.Tree.Grammar
