import Gherkin.Proofs.Movement
import Gherkin.Proofs.States

/-!
Reuse of a reader.

A reader that turns to another document keeps the dialect in force if it is of the right language
and leaves all conditions but the outermost. In every state that calls can lead to, this sets it back
to the state of a new reader, so that nothing of the earlier documents is left. Parsing a document
only asks the reader for tokens, and so a parser can be used again as well.
-/

namespace Gherkin

namespace Reader

variable {setup : Setup} {text : Text} {reader : Reader}

theorem Reached.nextUncommented (reached : Reached setup text reader) (fuel : Nat) :
    Reached setup text (reader.nextUncommented fuel).2 := by
  induction fuel generalizing reader with
  | zero => exact reached.next
  | succ fuel ih =>
      have further := reached.next
      rw [Reader.nextUncommented]
      generalize reader.next = given at further
      obtain ⟨_ | token, after⟩ := given
      · exact further
      · simp only
        split
        · exact ih further
        · exact further

theorem Reached.moves {cursor after : Cursor} (reached : Reached setup text cursor.reader)
    (moves : Parse.Moves cursor after) : Reached setup text after.reader := by
  induction moves with
  | refl => exact reached
  | @fetch cursor _ ih =>
      have further := ih.nextUncommented cursor.limit
      rw [Parse.fetch]
      generalize cursor.reader.nextUncommented cursor.limit = given at further
      obtain ⟨_ | token, reader⟩ := given
      · exact further
      · exact further
  | consume _ ih => exact ih

/-- A document that is rejected leaves the reader where the error was found. -/
theorem Reached.parse {before : Text} (reached : Reached setup before reader) (text : Text) :
    Reached setup text (reader.parse text).2 := by
  have ready : Reached setup text (Cursor.ofReader (reader.restart text)).reader :=
    reached.restart text
  exact ready.moves (Parse.travels_feature (.ofReader (reader.restart text)))

def afterParsing (reader : Reader) (documents : List Text) : Reader :=
  documents.foldl (fun reader text => (reader.parse text).2) reader

theorem Reached.afterParsing {before : Text} (reached : Reached setup before reader)
    (documents : List Text) : ∃ last, Reached setup last (reader.afterParsing documents) := by
  induction documents generalizing before reader with
  | nil => exact ⟨before, reached⟩
  | cons text rest ih => exact ih (reached.parse text)

theorem Reached.restart_eq {before : Text} (reached : Reached setup before reader) (text : Text) :
    reader.restart text = (Reader.start setup []).restart text := by
  rw [reached.tracks.restart_eq, restart_start]

end Reader

/-- A reader that turns to a document is in the state of a new one that turns to it, whatever was
called before, and so all it says later is the same. A parser that has met any documents finds in
the next one what a new parser finds. -/
theorem reuse_eq_fresh (setup : Setup) (text : Text) :
    (∀ calls : List Reader.Call,
      ((Reader.start setup []).after calls).restart text = (Reader.start setup []).restart text) ∧
    ∀ documents : List Text,
      (((Reader.start setup []).afterParsing documents).parse text).1 = parse setup text := by
  constructor
  · intro calls
    exact (Reader.reached_after setup calls).restart_eq text
  · intro documents
    have fresh : Reader.Reached setup [] (.start setup []) := .start
    obtain ⟨last, reached⟩ := fresh.afterParsing documents
    rw [parse, Reader.parse, Reader.parse, reached.restart_eq]

end Gherkin
