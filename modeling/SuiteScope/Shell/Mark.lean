import SuiteScope.Shell.Syntax

/-!
# From marks to pieces

The text of a word is first read as a flat list of marks, in which what is done with a parameter is
opened by one mark and closed by another. `wordOfMarks` turns the list into the nested pieces of a
word and finds out which of them stand in quotes.
-/

namespace SuiteScope.Shell

/-- A mark in the text of a word. -/
inductive Mark
  | char (c : Char)
  /-- A character that has been quoted. -/
  | literal (c : Char)
  | quotes
  /-- The use of a parameter. It reaches up to `closes`, unless it is plain. -/
  | opens (name : Bytes) (head : Head)
  | closes
  | opensSum
  | closesSum
  | output (of : Option Command)

/-- Whether the word given with a parameter is in quotes when the parameter is. -/
def Head.keepsQuotes : Head → Bool
  | .fallback .instead _ | .fallback .opposite _ => true
  | _ => false

/-- The pieces of marks up to the one that closes, and the marks behind it. `outer` tells that the
whole stands in quotes, and `inner` that quotes have been opened since. All parameters in quotes of
their own need no marks of quotes. -/
def piecesOf : (fuel : Nat) → (outer inner : Bool) → (done : List Piece) → List Mark →
    Word × List Mark
  | 0, _, _, done, _ | _, _, _, done, [] => (done.reverse, [])
  | fuel + 1, outer, inner, done, m :: ms =>
    let quoted := outer || inner
    match m with
    | .char c => piecesOf fuel outer inner (.char c false quoted :: done) ms
    | .literal c => piecesOf fuel outer inner (.char c true quoted :: done) ms
    | .quotes =>
      match inner, ms with
      | false, .opens ['@'] .plain :: .quotes :: ms =>
        piecesOf fuel outer inner (.parameter ['@'] .plain [] true :: done) ms
      | inner, ms => piecesOf fuel outer (!inner) (.quotes :: done) ms
    | .opens name .plain =>
      piecesOf fuel outer inner (.parameter name .plain [] quoted :: done) ms
    | .opens name .followed =>
      piecesOf fuel outer inner (.parameter name .followed [] quoted :: done) ms
    | .opens name head =>
      let (word, ms) := piecesOf fuel (head.keepsQuotes && quoted) false [] ms
      piecesOf fuel outer inner (.parameter name head word quoted :: done) ms
    | .opensSum =>
      let (expression, ms) := piecesOf fuel false false [] ms
      piecesOf fuel outer inner (.sum expression quoted :: done) ms
    | .closes | .closesSum => (done.reverse, ms)
    | .output c => piecesOf fuel outer inner (.output c quoted :: done) ms

/-- The word of a list of marks, which stands in quotes as a whole if `quoted` is set. -/
def wordOfMarks (quoted : Bool) (marks : List Mark) : Word :=
  (piecesOf (marks.length + 1) quoted false [] marks).1

end SuiteScope.Shell
