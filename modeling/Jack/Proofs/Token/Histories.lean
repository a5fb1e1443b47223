import Jack.Proofs.Token.Faults
import Jack.Proofs.Token.Tiling

/-!
Contract: what a scanner is like after any history of its use.

Owns: operations on a scanner, the scanner that a history of them leaves, where in the
source the tokens and faults of a scanner start, and the laws that every such scanner obeys.

Does not own: which texts are lexemes, and which show a fault.

A fault leaves a scanner in the middle of its work, and every operation may follow. So the
laws are about scanners that stand anywhere in their source, and one step that reads a
lexeme, skips white space or gives up is all that any operation is made of.
-/

set_option autoImplicit false

namespace Jack

/-! ## Places in a source -/

/-- A token with the offset of its first byte. -/
structure Span where
  offset : Nat
  token : Token

def Span.finish (span : Span) : Nat :=
  span.offset + span.token.source.length

/-- The source has the token as a lexeme at the offset, which is on the token's line. -/
structure Span.In (source : Bytes) (span : Span) : Prop where
  lexeme : ∃ after, source.drop span.offset = span.token.source ++ after ∧
    Lexeme span.token.kind span.token.content after
  line : span.token.line = 1 + Bytes.lineBreaks (source.take span.offset)

/-- The source shows the fault of the diagnostic at the offset, which is on the diagnostic's
line. -/
structure Diagnostic.In (source : Bytes) (offset : Nat) (diagnostic : Diagnostic) : Prop where
  fault : ∃ fault taken after, diagnostic.cause = .lexical fault ∧
    source.drop offset = taken ++ after ∧ Malformed fault taken after
  line : diagnostic.line = 1 + Bytes.lineBreaks (source.take offset)

/-- The tokens stand in the source one behind the other, all of them in its first `upTo`
bytes. -/
structure LaidOut (source : Bytes) (upTo : Nat) (spans : List Span) : Prop where
  inSource : ∀ span ∈ spans, span.In source
  apart : spans.Pairwise fun one other => one.offset < other.offset ∧ one.finish ≤ other.offset
  within : ∀ span ∈ spans, span.finish ≤ upTo

/-- No token is empty. -/
theorem Span.In.offset_lt_finish {source : Bytes} {span : Span} (inSource : span.In source) :
    span.offset < span.finish := by
  obtain ⟨after, -, lexeme⟩ := inSource.lexeme
  obtain ⟨first, rest, starts, -⟩ := lexeme.source_starts
  rw [Span.finish, starts, List.length_cons]
  omega

theorem laidOut_nil (source : Bytes) (upTo : Nat) : LaidOut source upTo [] := by
  constructor <;> simp

/-- Tokens that start where others have ended may follow them. -/
theorem LaidOut.append {source : Bytes} {middle upTo : Nat} {front back : List Span}
    (frontLaid : LaidOut source middle front) (backLaid : LaidOut source upTo back)
    (behind : ∀ span ∈ back, middle ≤ span.offset) (le : middle ≤ upTo) :
    LaidOut source upTo (front ++ back) where
  inSource := List.forall_mem_append.mpr ⟨frontLaid.inSource, backLaid.inSource⟩
  apart := by
    apply List.pairwise_append.mpr ⟨frontLaid.apart, backLaid.apart, _⟩
    intro one inFront other inBack
    have starts := (frontLaid.inSource one inFront).offset_lt_finish
    have ends := frontLaid.within one inFront
    have later := behind other inBack
    omega
  within := by
    apply List.forall_mem_append.mpr ⟨_, backLaid.within⟩
    intro span member
    have ends := frontLaid.within span member
    omega

namespace Scanner

variable {source : Bytes} {scanner stop later : Scanner} {taken : Bytes}

/-- The scanner stands in the source, on the line of its place. -/
structure Stands (scanner : Scanner) (source : Bytes) : Prop where
  source_eq : scanner.source = source
  within : scanner.position ≤ source.length
  rest_eq : scanner.rest = source.drop scanner.position
  line_eq : scanner.line = 1 + Bytes.lineBreaks (source.take scanner.position)

/-- A place is told by the text in front of it. -/
theorem stands_of_parts {before : Bytes} (same : scanner.source = source)
    (parts : source = before ++ scanner.rest)
    (line : scanner.line = 1 + Bytes.lineBreaks before) :
    scanner.Stands source ∧ scanner.position = before.length := by
  have position : scanner.position = before.length := by
    rw [Scanner.position, same, parts, List.length_append]
    omega
  refine ⟨⟨same, ?_, ?_, ?_⟩, position⟩
  · rw [position, parts, List.length_append]
    omega
  · rw [position, parts, List.drop_left]
  · rw [position, parts, List.take_left, line]

/-- From one scanner to a later one, `taken` was read. -/
structure Moves (scanner later : Scanner) (taken : Bytes) : Prop where
  source_eq : later.source = scanner.source
  rest_eq : scanner.rest = taken ++ later.rest
  line_eq : later.line = scanner.line + Bytes.lineBreaks taken

theorem moves_refl (scanner : Scanner) : scanner.Moves scanner [] :=
  ⟨rfl, rfl, rfl⟩

/-- Offsets grow by the bytes read, and lines by the breaks among them. -/
theorem Stands.move (stands : scanner.Stands source) (moves : scanner.Moves later taken) :
    later.Stands source ∧ later.position = scanner.position + taken.length := by
  have parts : source = (source.take scanner.position ++ taken) ++ later.rest := by
    rw [List.append_assoc, ← moves.rest_eq, stands.rest_eq, List.take_append_drop]
  have line : later.line =
      1 + Bytes.lineBreaks (source.take scanner.position ++ taken) := by
    rw [moves.line_eq, stands.line_eq, Bytes.lineBreaks, Bytes.lineBreaks, Bytes.lineBreaks,
      List.count_append]
    omega
  have placed := stands_of_parts (moves.source_eq.trans stands.source_eq) parts line
  rwa [List.length_append, List.length_take_of_le stands.within] at placed

theorem Stands.position_lt (stands : scanner.Stands source) (moves : scanner.Moves later taken)
    (nonempty : taken ≠ []) : scanner.position < later.position := by
  have position := (stands.move moves).2
  have long := List.length_pos_of_ne_nil nonempty
  omega

theorem Stands.at_end_iff (stands : scanner.Stands source) :
    scanner.position = source.length ↔ scanner.rest = [] := by
  rw [stands.rest_eq, List.drop_eq_nil_iff]
  have within := stands.within
  omega

theorem stands_ofSource (source : Bytes) : (ofSource source).Stands source :=
  (stands_of_parts rfl (List.nil_append _).symm rfl).1

theorem moves_skipSpace (scanner : Scanner) :
    scanner.Moves scanner.skipSpace (scanner.rest.takeWhile Alphabet.isSpace) where
  source_eq := rfl
  rest_eq := List.takeWhile_append_dropWhile.symm
  line_eq := rfl

section Attempts

variable {first : UInt8} {tail : Bytes}

/-- A token is read from the place of the scanner on. -/
theorem moves_of_token {token : Token} (starts : scanner.rest = first :: tail)
    (read : (Attempt.start scanner.line first tail).outcome = .ok token) :
    ∃ returns, scanner.Moves (scanner.after (Attempt.start scanner.line first tail))
        (token.source ++ returns) ∧ token.line = scanner.line ∧
      Lexeme token.kind token.content
        (returns ++ (Attempt.start scanner.line first tail).rest) := by
  obtain ⟨line, after, same, lexeme⟩ := Attempt.found_of_start read
  have reads := Attempt.reads_of_lexeme lexeme same.symm
  rw [line] at reads
  obtain ⟨returns, parts, run⟩ := reads.rest
  have noBreaks : Bytes.lineBreaks returns = 0 := by
    apply List.count_eq_zero.mpr
    intro member
    exact absurd (run _ member) (by decide)
  refine ⟨returns, ⟨rfl, ?_, ?_⟩, line, parts ▸ lexeme⟩
  · show scanner.rest = token.source ++ returns ++ (Attempt.start scanner.line first tail).rest
    rw [starts, same, parts, List.append_assoc]
  · show (Attempt.start scanner.line first tail).line = _
    rw [reads.line, line, Bytes.lineBreaks, Bytes.lineBreaks, List.count_append]
    rw [Bytes.lineBreaks] at noBreaks
    omega

/-- Before a fault, only what belongs to it is read. -/
theorem moves_of_fault {fault : LexicalFault} (starts : scanner.rest = first :: tail)
    (failed : (Attempt.start scanner.line first tail).outcome = .error fault) :
    ∃ taken, scanner.Moves (scanner.after (Attempt.start scanner.line first tail)) taken ∧
      Malformed fault taken (Attempt.start scanner.line first tail).rest := by
  obtain ⟨line, taken, parts, malformed⟩ := Attempt.fails_of_start failed
  refine ⟨taken, ⟨rfl, starts.trans parts, ?_⟩, malformed⟩
  show (Attempt.start scanner.line first tail).line = _
  rw [line, malformed.lineBreaks_taken]
  rfl

/-- A token that is read starts at the place of the scanner. -/
theorem span_in_of_token {token : Token} (stands : scanner.Stands source)
    (starts : scanner.rest = first :: tail)
    (read : (Attempt.start scanner.line first tail).outcome = .ok token) :
    (Span.mk scanner.position token).In source := by
  obtain ⟨returns, moves, line, lexeme⟩ := moves_of_token starts read
  refine ⟨⟨_, ?_, lexeme⟩, line.trans stands.line_eq⟩
  rw [← stands.rest_eq, moves.rest_eq, List.append_assoc]
  rfl

/-- A fault is reported for the place where the attempt started, not for where it gave up. -/
theorem diagnostic_in_of_fault {fault : LexicalFault} (stands : scanner.Stands source)
    (starts : scanner.rest = first :: tail)
    (failed : (Attempt.start scanner.line first tail).outcome = .error fault) :
    (scanner.diagnostic fault).In source scanner.position := by
  obtain ⟨taken, moves, malformed⟩ := moves_of_fault starts failed
  refine ⟨⟨fault, taken, _, rfl, ?_, malformed⟩, ?_⟩
  · rw [← stands.rest_eq]
    exact moves.rest_eq
  · rw [diagnostic, stands.line_eq]
    rfl

end Attempts

/-! ## Runs -/

/-- From one scanner to a later one, the tokens of `new` were read and kept, in this
order. -/
structure Advances (source : Bytes) (scanner later : Scanner) (new : List Span) : Prop where
  stands : later.Stands source
  forward : scanner.position ≤ later.position
  kept : later.kept.toList = scanner.kept.toList ++ new.map Span.token
  laidOut : LaidOut source later.position new
  behind : ∀ span ∈ new, scanner.position ≤ span.offset

/-- A move alone keeps nothing. -/
theorem Stands.advance (stands : scanner.Stands source) (moves : scanner.Moves later taken)
    (kept : later.kept = scanner.kept) : Advances source scanner later [] := by
  obtain ⟨laterStands, position⟩ := stands.move moves
  refine ⟨laterStands, by omega, ?_, laidOut_nil _ _, by simp⟩
  rw [kept, List.map_nil, List.append_nil]

/-- Tokens of the second stretch stand behind those of the first. -/
theorem Advances.trans {front back : List Span} (first : Advances source scanner stop front)
    (second : Advances source stop later back) :
    Advances source scanner later (front ++ back) where
  stands := second.stands
  forward := Nat.le_trans first.forward second.forward
  kept := by rw [second.kept, first.kept, List.map_append, List.append_assoc]
  laidOut := first.laidOut.append second.laidOut second.behind second.forward
  behind := by
    apply List.forall_mem_append.mpr ⟨first.behind, _⟩
    intro span member
    exact Nat.le_trans first.forward (second.behind span member)

theorem Stands.advance_token {first : UInt8} {tail : Bytes} {token : Token}
    (stands : scanner.Stands source) (starts : scanner.rest = first :: tail)
    (read : (Attempt.start scanner.line first tail).outcome = .ok token) :
    Advances source scanner
      { scanner.after (Attempt.start scanner.line first tail) with
        kept := scanner.kept.push token } [⟨scanner.position, token⟩] := by
  obtain ⟨returns, moves, -⟩ := moves_of_token starts read
  have keeping : scanner.Moves { scanner.after (Attempt.start scanner.line first tail) with
      kept := scanner.kept.push token } (token.source ++ returns) :=
    ⟨moves.source_eq, moves.rest_eq, moves.line_eq⟩
  obtain ⟨laterStands, position⟩ := stands.move keeping
  have inSource := span_in_of_token stands starts read
  rw [List.length_append] at position
  refine ⟨laterStands, by omega, by simp, ⟨?_, List.pairwise_singleton _ _, ?_⟩, ?_⟩
  · simpa using inSource
  · rw [List.forall_mem_singleton, Span.finish]
    show scanner.position + token.source.length ≤ _
    omega
  · simp

/-- How a run ends that has come to `stop`. -/
inductive Ends (stop : Scanner) : Except Diagnostic (Array Token) × Scanner → Prop where
  | finished (nothing : stop.rest = []) : Ends stop (.ok stop.kept, stop)
  | stopped {first : UInt8} {tail : Bytes} {fault : LexicalFault}
      (starts : stop.rest = first :: tail)
      (failed : (Attempt.start stop.line first tail).outcome = .error fault) :
      Ends stop (.error (stop.diagnostic fault),
        stop.after (Attempt.start stop.line first tail))

/-- A run reads and keeps tokens up to a place where there is nothing or a fault. -/
theorem exists_stop (stands : scanner.Stands source) :
    ∃ new stop, Advances source scanner stop new ∧
      (∀ byte ∈ stop.rest.head?, Alphabet.isSpace byte = false) ∧ stop.Ends scanner.run := by
  induction remaining : scanner.rest.length using Nat.strong_induction_on
    generalizing scanner with
  | _ length inductionHypothesis =>
      have skipped : Advances source scanner scanner.skipSpace [] :=
        stands.advance (moves_skipSpace scanner) rfl
      have notBlank : ∀ byte ∈ scanner.skipSpace.rest.head?, Alphabet.isSpace byte = false :=
        Bytes.not_accepts_head_dropWhile _ _
      cases starts : scanner.skipSpace.rest with
      | nil =>
          refine ⟨[], scanner.skipSpace, skipped, notBlank, ?_⟩
          rw [run_at_end starts]
          exact .finished starts
      | cons first tail =>
          cases read : (Attempt.start scanner.skipSpace.line first tail).outcome with
          | error fault =>
              refine ⟨[], scanner.skipSpace, skipped, notBlank, ?_⟩
              rw [run_at_fault starts read]
              exact .stopped starts read
          | ok token =>
              have advances := skipped.trans (skipped.stands.advance_token starts read)
              have shorter : (Attempt.start scanner.skipSpace.line first tail).rest.length <
                  length := by
                have taken := Attempt.rest_length_le_of_start_ok read
                have skips := skipSpace_rest_length_le scanner
                rw [starts, List.length_cons] at skips
                omega
              obtain ⟨new, stop, onward, tight, ends⟩ :=
                inductionHypothesis _ shorter advances.stands rfl
              refine ⟨_, stop, advances.trans onward, tight, ?_⟩
              rw [run_at_token starts read]
              exact ends

/-- Where a run has come to, another one ends at once in the same way. -/
theorem Ends.run_eq {result : Except Diagnostic (Array Token) × Scanner}
    (ends : stop.Ends result)
    (tight : ∀ byte ∈ stop.rest.head?, Alphabet.isSpace byte = false) : stop.run = result := by
  have same := skipSpace_eq_self tight
  cases ends with
  | finished nothing =>
      rw [run_at_end (same.symm ▸ nothing), same]
  | stopped starts failed =>
      rw [run_at_fault (same.symm ▸ starts) (same.symm ▸ failed), same]

theorem Moves.eq_of_nil {attempt : Attempt} (moves : scanner.Moves (scanner.after attempt) []) :
    scanner.after attempt = scanner := by
  have rest : attempt.rest = scanner.rest := moves.rest_eq.symm
  have line : attempt.line = scanner.line := moves.line_eq
  rw [after, rest, line]

/-- What a run does to a scanner: it keeps new tokens and then reads over what belongs to a
fault, if it comes to one. -/
theorem advances_run (stands : scanner.Stands source) :
    ∃ new, Advances source scanner scanner.run.2 new := by
  obtain ⟨new, stop, advances, -, ends⟩ := exists_stop stands
  generalize scanner.run = result at ends ⊢
  cases ends with
  | finished => exact ⟨new, advances⟩
  | stopped starts failed =>
      obtain ⟨taken, moves, -⟩ := moves_of_fault starts failed
      exact ⟨_, advances.trans (advances.stands.advance moves rfl)⟩

/-- A run that succeeds has left nothing of the source unread. -/
theorem eq_kept_of_run {tokens : Array Token} (stands : scanner.Stands source)
    (succeeded : scanner.run.1 = .ok tokens) :
    tokens = scanner.run.2.kept ∧ scanner.run.2.position = source.length := by
  obtain ⟨new, stop, advances, -, ends⟩ := exists_stop stands
  generalize scanner.run = result at ends succeeded ⊢
  cases ends with
  | finished nothing =>
      exact ⟨(Except.ok.inj succeeded).symm, advances.stands.at_end_iff.mpr nothing⟩
  | stopped => cases succeeded

/-! ## Repeated runs -/

/-- The scanner after this many runs. -/
def afterRuns (scanner : Scanner) : Nat → Scanner
  | 0 => scanner
  | count + 1 => scanner.run.2.afterRuns count

theorem afterRuns_of_fixed (fixed : scanner.run.2 = scanner) (count : Nat) :
    scanner.afterRuns count = scanner := by
  induction count with
  | zero => rfl
  | succ count inductionHypothesis =>
      rw [afterRuns, fixed]
      exact inductionHypothesis

/-- A run leaves less to be read, or it will be the same forever. -/
theorem run_shorter_or_final (stands : scanner.Stands source) :
    scanner.run.2.rest.length < scanner.rest.length ∨ scanner.run.2.run = scanner.run := by
  obtain ⟨new, stop, advances, tight, ends⟩ := exists_stop stands
  have again := ends.run_eq tight
  have remaining : stop.rest.length ≤ scanner.rest.length := by
    have forward := advances.forward
    have within := advances.stands.within
    rw [advances.stands.rest_eq, stands.rest_eq, List.length_drop, List.length_drop]
    omega
  generalize scanner.run = result at ends again ⊢
  cases ends with
  | finished => exact .inr again
  | stopped starts failed =>
      obtain ⟨taken, moves, -⟩ := moves_of_fault starts failed
      cases taken with
      | nil =>
          right
          show (stop.after _).run = _
          rw [moves.eq_of_nil] at again ⊢
          exact again
      | cons byte others =>
          left
          have shorter := congrArg List.length moves.rest_eq
          rw [List.length_append, List.length_cons] at shorter
          show (stop.after _).rest.length < _
          omega

/-- After at most as many runs as there are bytes left, all runs have one outcome. -/
theorem exists_final_outcome (stands : scanner.Stands source) :
    ∃ count outcome, count ≤ scanner.rest.length ∧
      ∀ later, count ≤ later → (scanner.afterRuns later).run.1 = outcome := by
  induction remaining : scanner.rest.length using Nat.strong_induction_on
    generalizing scanner with
  | _ length inductionHypothesis =>
      rcases run_shorter_or_final stands with shorter | final
      · obtain ⟨new, advances⟩ := advances_run stands
        obtain ⟨count, outcome, few, same⟩ :=
          inductionHypothesis _ (remaining ▸ shorter) advances.stands rfl
        refine ⟨count + 1, outcome, by omega, ?_⟩
        intro later reached
        cases later with
        | zero => omega
        | succ before => exact same before (by omega)
      · refine ⟨0, scanner.run.1, Nat.zero_le _, ?_⟩
        intro later _
        cases later with
        | zero => rfl
        | succ before =>
            have fixed := afterRuns_of_fixed (congrArg Prod.snd final) before
            rw [afterRuns, fixed]
            exact congrArg Prod.fst final

/-! ## Histories -/

inductive Operation where
  | run
  | next
  | skipSpace
  | reset
deriving DecidableEq, Repr

def perform (scanner : Scanner) : Operation → Scanner
  | .run => scanner.run.2
  | .next => scanner.next.2
  | .skipSpace => scanner.skipSpace
  | .reset => scanner.reset

/-- The scanner that a history leaves, from a new one on. -/
def afterAll (source : Bytes) (history : List Operation) : Scanner :=
  history.foldl perform (ofSource source)

theorem next_of_cons {first : UInt8} {tail : Bytes} (starts : scanner.rest = first :: tail) :
    scanner.next =
      (some ((Attempt.start scanner.line first tail).outcome.mapError scanner.diagnostic),
        scanner.after (Attempt.start scanner.line first tail)) := by
  rw [next, starts]

/-- What reading one lexeme comes to. -/
inductive Nexts (source : Bytes) (scanner : Scanner) :
    Option (Except Diagnostic Token) × Scanner → Prop where
  | atEnd (nothing : scanner.rest = []) : Nexts source scanner (none, scanner)
  | token {token : Token} {later : Scanner} {taken : Bytes}
      (inSource : (Span.mk scanner.position token).In source)
      (moves : scanner.Moves later taken) (nonempty : taken ≠ [])
      (kept : later.kept = scanner.kept) :
      Nexts source scanner (some (.ok token), later)
  | fault {fault : LexicalFault} {later : Scanner} {taken : Bytes}
      (inSource : (scanner.diagnostic fault).In source scanner.position)
      (moves : scanner.Moves later taken) (stuck : fault.isStuck = true ↔ taken = [])
      (unmoved : taken = [] → later = scanner) (kept : later.kept = scanner.kept) :
      Nexts source scanner (some (.error (scanner.diagnostic fault)), later)

/-- A single step reads a token, meets a fault, or is at the end. -/
theorem nexts_next (stands : scanner.Stands source) : scanner.Nexts source scanner.next := by
  cases starts : scanner.rest with
  | nil =>
      have unread : scanner.next = (none, scanner) := by rw [next, starts]
      rw [unread]
      exact .atEnd starts
  | cons first tail =>
      rw [next_of_cons starts]
      cases read : (Attempt.start scanner.line first tail).outcome with
      | ok token =>
          obtain ⟨returns, moves, -, lexeme⟩ := moves_of_token starts read
          obtain ⟨byte, others, spelled, -⟩ := lexeme.source_starts
          refine .token (span_in_of_token stands starts read) moves ?_ rfl
          rw [spelled, List.cons_append]
          exact List.cons_ne_nil _ _
      | error fault =>
          obtain ⟨taken, moves, malformed⟩ := moves_of_fault starts read
          refine .fault (diagnostic_in_of_fault stands starts read) moves
            malformed.taken_eq_nil_iff.symm ?_ rfl
          rintro rfl
          exact moves.eq_of_nil

/-- No operation but a reset takes anything back. -/
theorem advances_perform (stands : scanner.Stands source) {operation : Operation}
    (other : operation ≠ .reset) :
    ∃ new, Advances source scanner (scanner.perform operation) new := by
  cases operation with
  | run => exact advances_run stands
  | next =>
      have nexts := nexts_next stands
      rw [perform]
      generalize scanner.next = result at nexts ⊢
      cases nexts with
      | atEnd => exact ⟨[], stands.advance (moves_refl scanner) rfl⟩
      | token _ moves _ kept => exact ⟨[], stands.advance moves kept⟩
      | fault _ moves _ _ kept => exact ⟨[], stands.advance moves kept⟩
  | skipSpace => exact ⟨[], stands.advance (moves_skipSpace scanner) rfl⟩
  | reset => exact absurd rfl other

/-- A reset gives a new scanner of the same source, whatever came before. -/
theorem Stands.reset_eq (stands : scanner.Stands source) : scanner.reset = ofSource source := by
  rw [reset, stands.source_eq]

/-- The scanner stands in its source, and its tokens lie in front of it. -/
structure Sound (source : Bytes) (scanner : Scanner) : Prop where
  stands : scanner.Stands source
  kept : ∃ spans, spans.map Span.token = scanner.kept.toList ∧
    LaidOut source scanner.position spans

theorem sound_ofSource (source : Bytes) : Sound source (ofSource source) :=
  ⟨stands_ofSource source, [], rfl, laidOut_nil _ _⟩

theorem Sound.advance {new : List Span} (sound : Sound source scanner)
    (advances : Advances source scanner later new) : Sound source later := by
  obtain ⟨spans, tokens, laidOut⟩ := sound.kept
  refine ⟨advances.stands, spans ++ new, ?_, ?_⟩
  · rw [advances.kept, List.map_append, tokens]
  · exact laidOut.append advances.laidOut advances.behind advances.forward

/-- Every operation keeps a scanner sound. A reset does because it starts anew, all others because
they only advance. -/
theorem Sound.perform (sound : Sound source scanner) (operation : Operation) :
    Sound source (scanner.perform operation) := by
  by_cases isReset : operation = .reset
  · rw [isReset, Scanner.perform, sound.stands.reset_eq]
    exact sound_ofSource source
  · obtain ⟨new, advances⟩ := advances_perform sound.stands isReset
    exact sound.advance advances

/-- So every history leaves a sound scanner. By induction on the history, from its end. -/
theorem sound_afterAll (source : Bytes) (history : List Operation) :
    Sound source (afterAll source history) := by
  induction history using List.reverseRecOn with
  | nil => exact sound_ofSource source
  | append_singleton rest operation inductionHypothesis =>
      rw [afterAll, List.foldl_append]
      exact inductionHypothesis.perform operation

/-- A failing run stops at its fault: all that is kept then ends in front of it. -/
theorem Sound.fault_behind_kept {diagnostic : Diagnostic} (sound : Sound source scanner)
    (failed : scanner.run.1 = .error diagnostic) :
    ∃ offset, scanner.position ≤ offset ∧ offset ≤ scanner.run.2.position ∧
      diagnostic.In source offset ∧ ∃ spans,
        spans.map Span.token = scanner.run.2.kept.toList ∧ LaidOut source offset spans := by
  obtain ⟨new, stop, advances, -, ends⟩ := exists_stop sound.stands
  generalize scanner.run = result at ends failed ⊢
  cases ends with
  | finished => cases failed
  | stopped starts fails =>
      obtain rfl := Except.error.inj failed
      obtain ⟨taken, moves, -⟩ := moves_of_fault starts fails
      exact ⟨stop.position, advances.forward, (advances.stands.advance moves rfl).forward,
        diagnostic_in_of_fault advances.stands starts fails, (sound.advance advances).kept⟩

/-- The laws of a scanner of the source. -/
structure Lawful (source : Bytes) (scanner : Scanner) : Prop where
  /-- The place is in the source, and the line is that of the place. -/
  stands : scanner.Stands source
  /-- The tokens kept stand in the source one behind the other, up to the place, each on the
  line of its first byte. -/
  kept : ∃ spans, spans.map Span.token = scanner.kept.toList ∧
    LaidOut source scanner.position spans
  /-- Whatever is done but a reset, new tokens come behind those kept, from the place on. -/
  grows : ∀ operation, operation ≠ .reset → ∀ spans,
    spans.map Span.token = scanner.kept.toList → LaidOut source scanner.position spans →
    ∃ new, (scanner.perform operation).kept.toList =
        scanner.kept.toList ++ new.map Span.token ∧
      LaidOut source (scanner.perform operation).position (spans ++ new) ∧
      ∀ span ∈ new, scanner.position ≤ span.offset
  /-- Only a run keeps tokens. -/
  unkept : ∀ operation, operation ≠ .reset → operation ≠ .run →
    (scanner.perform operation).kept = scanner.kept
  /-- A reset makes the scanner a new one. -/
  restarts : scanner.reset.kept = #[] ∧ scanner.reset.run = (ofSource source).run
  /-- A run that succeeds has come to the end of the source, and answers with all that is kept
  then. -/
  answers : ∀ tokens, scanner.run.1 = .ok tokens →
    tokens = scanner.run.2.kept ∧ scanner.run.2.position = source.length
  /-- The fault that a run reports starts on the line of the diagnostic, in what the run has
  come over and behind every token that is kept then. -/
  reports : ∀ diagnostic, scanner.run.1 = .error diagnostic →
    ∃ offset, scanner.position ≤ offset ∧ offset ≤ scanner.run.2.position ∧
      diagnostic.In source offset ∧ ∃ spans,
        spans.map Span.token = scanner.run.2.kept.toList ∧ LaidOut source offset spans
  /-- There is a next lexeme or a fault wherever bytes remain. -/
  remains : scanner.next.1 = none ↔ scanner.position = source.length
  /-- A single token starts at the place, -/
  reads : ∀ token, scanner.next.1 = some (.ok token) →
    (Span.mk scanner.position token).In source ∧ scanner.position < scanner.next.2.position
  /-- and so does a single fault. It leaves the scanner as it is if it is an unexpected byte or
  a comment without an end, and moves it otherwise. -/
  fails : ∀ diagnostic, scanner.next.1 = some (.error diagnostic) →
    diagnostic.In source scanner.position ∧ ∃ fault, diagnostic.cause = .lexical fault ∧
      (fault.isStuck = true → scanner.next.2 = scanner) ∧
      (fault.isStuck = false → scanner.position < scanner.next.2.position)
  /-- Repeated runs come to one list or to one fault, after at most as many runs as bytes
  are left. -/
  settles : ∃ count ≤ scanner.rest.length,
    (∃ tokens, ∀ later, count ≤ later → (scanner.afterRuns later).run.1 = .ok tokens) ∨
      ∃ diagnostic, ∀ later, count ≤ later →
        (scanner.afterRuns later).run.1 = .error diagnostic

/-- Every history of runs, single steps and resets obeys the laws. -/
theorem every_history_lawful (source : Bytes) (history : List Operation) :
    Lawful source (afterAll source history) := by
  have sound := sound_afterAll source history
  generalize afterAll source history = scanner at sound ⊢
  have stands := sound.stands
  have nexts := nexts_next stands
  constructor
  case stands => exact stands
  case kept => exact sound.kept
  case grows =>
    intro operation other spans tokens laidOut
    obtain ⟨new, advances⟩ := advances_perform stands other
    exact ⟨new, advances.kept,
      laidOut.append advances.laidOut advances.behind advances.forward, advances.behind⟩
  case unkept =>
    intro operation notReset notRun
    cases operation with
    | run => exact absurd rfl notRun
    | reset => exact absurd rfl notReset
    | skipSpace => rfl
    | next =>
        rw [perform]
        generalize scanner.next = result at nexts ⊢
        cases nexts with
        | atEnd => rfl
        | token _ _ _ kept => exact kept
        | fault _ _ _ _ kept => exact kept
  case restarts =>
    rw [stands.reset_eq]
    exact ⟨rfl, rfl⟩
  case answers => exact fun tokens => eq_kept_of_run stands
  case reports => exact fun diagnostic => sound.fault_behind_kept
  case remains =>
    rw [stands.at_end_iff]
    cases starts : scanner.rest with
    | nil => simp [next, starts]
    | cons first tail => simp [next, starts]
  case reads =>
    intro token read
    generalize scanner.next = result at nexts read ⊢
    cases nexts with
    | atEnd => cases read
    | fault => cases read
    | token inSource moves nonempty =>
        obtain rfl := Except.ok.inj (Option.some.inj read)
        exact ⟨inSource, stands.position_lt moves nonempty⟩
  case fails =>
    intro diagnostic read
    generalize scanner.next = result at nexts read ⊢
    cases nexts with
    | atEnd => cases read
    | token => cases read
    | @fault fault _ _ inSource moves stuck unmoved =>
        obtain rfl := Except.error.inj (Option.some.inj read)
        refine ⟨inSource, fault, rfl, fun isStuck => unmoved (stuck.mp isStuck), ?_⟩
        intro moving
        apply stands.position_lt moves
        intro nothing
        rw [stuck.mpr nothing] at moving
        cases moving
  case settles =>
    obtain ⟨count, outcome, few, same⟩ := exists_final_outcome stands
    refine ⟨count, few, ?_⟩
    cases outcome with
    | ok tokens => exact .inl ⟨tokens, same⟩
    | error diagnostic => exact .inr ⟨diagnostic, same⟩

end Scanner

end Jack
