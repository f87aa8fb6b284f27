/-!
# Words of a command line

A command line is split into words at blanks outside quotes. Single quotes keep everything, double
quotes everything but the backslash before `$`, a backtick, a double quote, a backslash or a line
end, and a backslash outside quotes keeps the next character. A number sign at the start of a word
opens a comment. `split?` has no result when a quote stays open. `quote` writes a word so that it
is read back as it is, and `join` writes a list of words.
-/

namespace SuiteScope.Shell.Words

/-- Where the reading of a command line is. -/
inductive State
  | between
  | betweenBackslash
  | bare
  | bareBackslash
  | single
  | double
  | doubleBackslash
  | comment
  deriving DecidableEq, Repr

/-- What ends a word outside quotes. -/
def isSeparator (c : Char) : Bool :=
  c == ' ' || c == '\t' || c == '\n'

/-- The characters that a backslash in double quotes keeps from being special. -/
def isDoubleSpecial (c : Char) : Bool :=
  c == '$' || c == '\x60' || c == '\x22' || c == '\\'

/-- The words of the rest of a command line. `word` is what has been read of the current word. -/
def splitFrom : (state : State) → (word : List Char) → (s : List Char) → Option (List (List Char))
  | .between, _, [] | .comment, _, [] => some []
  | .bare, word, [] => some [word]
  | .betweenBackslash, word, [] | .bareBackslash, word, [] => some [word ++ ['\\']]
  | .single, _, [] | .double, _, [] | .doubleBackslash, _, [] => none
  | .between, word, c :: s =>
    if isSeparator c then splitFrom .between word s
    else if c = '\x27' then splitFrom .single word s
    else if c = '\x22' then splitFrom .double word s
    else if c = '\\' then splitFrom .betweenBackslash word s
    else if c = '#' then splitFrom .comment word s
    else splitFrom .bare (word ++ [c]) s
  | .betweenBackslash, word, c :: s =>
    if c = '\n' then splitFrom .between word s else splitFrom .bare (word ++ [c]) s
  | .bare, word, c :: s =>
    if isSeparator c then (splitFrom .between [] s).map (word :: ·)
    else if c = '\x27' then splitFrom .single word s
    else if c = '\x22' then splitFrom .double word s
    else if c = '\\' then splitFrom .bareBackslash word s
    else splitFrom .bare (word ++ [c]) s
  | .bareBackslash, word, c :: s =>
    if c = '\n' then splitFrom .bare word s else splitFrom .bare (word ++ [c]) s
  | .single, word, c :: s =>
    if c = '\x27' then splitFrom .bare word s else splitFrom .single (word ++ [c]) s
  | .double, word, c :: s =>
    if c = '\x22' then splitFrom .bare word s
    else if c = '\\' then splitFrom .doubleBackslash word s
    else splitFrom .double (word ++ [c]) s
  | .doubleBackslash, word, c :: s =>
    if c = '\n' then splitFrom .double word s
    else if isDoubleSpecial c then splitFrom .double (word ++ [c]) s
    else splitFrom .double (word ++ ['\\', c]) s
  | .comment, word, c :: s =>
    if c = '\n' then splitFrom .between word s else splitFrom .comment word s

/-- The words of a command line, unless a quote stays open. -/
def split? (line : String) : Option (List String) :=
  (splitFrom .between [] line.toList).map (·.map String.ofList)

/-- The characters that are not written without quotes. -/
def isSpecial (c : Char) : Bool :=
  ['\n', '\x27', '|', '&', ';', '<', '>', '(', ')', '$', '\x60', '\\', '\x22', ' ', '\t', '*', '?',
    '[', '#', '~', '=', '%'].contains c

/-- One character inside single quotes, which are left and entered again around a single quote. -/
def quoteChar (c : Char) : List Char :=
  if c = '\x27' then ['\x27', '\\', '\x27', '\x27'] else [c]

/-- A word, in quotes where it needs them. -/
def quote (word : List Char) : List Char :=
  if word ≠ [] ∧ word.all (!isSpecial ·) then word
  else '\x27' :: word.flatMap quoteChar ++ ['\x27']

/-- The command line of a list of words. -/
def join (words : List String) : String :=
  " ".intercalate (words.map fun w => String.ofList (quote w.toList))

example : split? "a 'b c' \"d\\\"\" # e" = some ["a", "b c", "d\""] := by decide +kernel

example : join ["a", "", "it's"] = "a '' 'it'\\''s'" := by decide +kernel

end SuiteScope.Shell.Words
