import SuiteScope.Shell.Mark
import SuiteScope.Shell.Reader

/-!
# Words and tokens

`readWord` reads a word, or the text of a redirection, as a list of marks. Quotes, uses of
parameters and sums are inside each other, so what a character means depends on a stack of `Level`s.
`readToken` reads the next token of a script, and looks for keywords and aliases where they count.
The commands in a word are read by the computation `nested`, which is told whether a closing
parenthesis ends them.
-/

namespace SuiteScope.Shell

/-- How characters are read. -/
inductive Quoting
  | bare
  | single
  | double
  | sum
  deriving DecidableEq, Repr

/-- What a character means. -/
inductive Meaning
  | newline
  | plain
  /-- A character that would mean something without quotes. -/
  | kept
  | backslash
  | opensSingle
  | opensDouble
  | closesQuotes
  | parameter
  | closesParameter
  | left
  | right
  | backquote
  /-- The end of a word. -/
  | breaks
  deriving DecidableEq, Repr

/-- What a character means in each kind of quotes. -/
def Quoting.meaning (q : Quoting) (c : Char) : Meaning :=
  let isKept := ['!', '*', '?', '[', '=', '~', ':', '/', '-', ']'].contains c
  if c = '\n' then .newline
  else
    match q with
    | .single => if c = '\x27' then .closesQuotes else if isKept || c == '\\' then .kept else .plain
    | .bare =>
      match c with
      | '\\' => .backslash
      | '\x27' => .opensSingle
      | '\x22' => .opensDouble
      | '\x60' => .backquote
      | '$' => .parameter
      | '\x7d' => .closesParameter
      | '<' | '>' | '(' | ')' | ';' | '&' | '|' | ' ' | '\t' => .breaks
      | _ => .plain
    | .double =>
      match c with
      | '\\' => .backslash
      | '\x22' => .closesQuotes
      | '\x60' => .backquote
      | '$' => .parameter
      | '\x7d' => .closesParameter
      | _ => if isKept then .kept else .plain
    | .sum =>
      match c with
      | '\\' => .backslash
      | '\x60' => .backquote
      | '$' => .parameter
      | '\x7d' => .closesParameter
      | '(' => .left
      | ')' => .right
      | _ => .plain

/-- A level of a word : the word itself, a sum, or the word given with a parameter. -/
structure Level where
  quoting : Quoting
  /-- Whether it stands in double quotes, or counts as doing so. -/
  isDouble : Bool := false
  /-- The number of parameters whose word is open. -/
  depth : Nat := 0
  /-- Whether the level was opened for the word of a parameter. -/
  isOperand : Bool := false
  /-- Whether quotes were opened in the word of a parameter. -/
  isInner : Bool := false
  /-- The number of parameters whose word is open in double quotes. -/
  doubleDepth : Nat := 0
  parentheses : Nat := 0

/-- A word as far as it is read, last mark first, with its open levels. -/
structure Scan where
  level : Level
  below : List Level := []
  marks : List Mark := []
  isQuoted : Bool := false

namespace Scan

/-- The scan with one more mark. -/
def add (s : Scan) (m : Mark) : Scan :=
  { s with marks := m :: s.marks }

/-- The scan with a level opened. -/
def push (s : Scan) (l : Level) : Scan :=
  { s with level := l, below := s.level :: s.below }

/-- The scan with the top level closed. -/
def pop (s : Scan) : Scan :=
  match s.below with
  | l :: below => { s with level := l, below }
  | [] => s

/-- The scan with the top level changed. -/
def change (s : Scan) (f : Level → Level) : Scan :=
  { s with level := f s.level }

/-- A mark of quotes, which the text of a redirection does not have. -/
def addQuotes (s : Scan) (isText : Bool) : Scan :=
  if isText then s else s.add .quotes

/-- The scan after a quote that opens or closes double quotes. -/
def toggle (s : Scan) (isText : Bool) : Scan :=
  (s.change fun l => if 0 < l.depth then { l with isInner := !l.isInner } else l).addQuotes isText

/-- The scan after a quote that closes quotes. -/
def closeQuotes (s : Scan) (isText : Bool) (c : Char) : Scan :=
  if isText && s.level.depth == 0 then s.add (.char c)
  else
    let s := if s.level.doubleDepth = 0 then
        s.change fun l => { l with quoting := .bare, isDouble := false }
      else s
    let s := { s with isQuoted := true }
    if c = '\x22' then s.toggle isText else s.addQuotes isText

/-- The scan after a closing brace. -/
def closeParameter (s : Scan) : Scan :=
  if !s.level.isInner && 0 < s.level.depth then
    let s := s.change fun l => { l with depth := l.depth - 1 }
    let s :=
      if s.level.depth = 0 && s.level.isOperand then s.pop
      else s.change fun l => { l with doubleDepth := l.doubleDepth - 1 }
    s.add .closes
  else s.add (.char '\x7d')

/-- The scan after the use of a parameter has been opened. -/
def openParameter (s : Scan) (name : Bytes) (head : Head) : Scan :=
  let s := s.add (.opens name head)
  if head = .plain then s
  else
    let quoting :=
      match head with
      | .trim .. => .bare
      | _ => if s.level.quoting = .sum then .double else s.level.quoting
    let s :=
      if quoting != s.level.quoting || s.level.isInner then
        s.push { quoting, isOperand := true, isDouble := quoting != .bare }
      else s
    s.change fun l =>
      { l with
        depth := l.depth + 1
        doubleDepth := if l.isDouble then l.doubleDepth + 1 else l.doubleDepth }

end Scan

namespace Reading

/-! ## Parameters -/

/-- The characters of a class from the text ahead, after `c`. -/
def run (isMember : Char → Bool) (c : Option Char) : Reading (Bytes × Option Char) :=
  untilDone (fun (taken, c) =>
    match c.filter isMember with
    | some d => return .inl (d :: taken, ← nextJoined)
    | none => return .inr (taken.reverse, c)) ([], c)

/-- The first character from `c` on that is no tab. -/
def behindTabs (c : Option Char) : Reading (Option Char) :=
  untilDone (fun c => if c = some '\t' then .inl <$> next else return .inr c) c

/-- Whether a character is of a class. -/
def isA (isMember : Char → Bool) (c : Option Char) : Bool :=
  c.any isMember

/-- The name and use of a parameter in braces, of which `c` is the first character. -/
def bracedName (c : Option Char) : Reading (Bytes × Option Char × Option Head) := do
  let plainName := fun (c : Option Char) (head : Option Head) => do
    let (name, c) ← run (if c.any Char.isDigit then Char.isDigit else isNameChar) c
    return (name, c, head)
  if isA (fun c => isNameStart c || c.isDigit) c then plainName c none
  else if c = some '\x7d' then return ([], c, some .malformed)
  else
    let special := fun (name after : Option Char) (head : Option Head) =>
      match name.filter isSpecialParameter with
      | some n => ([n], after, head)
      | none => ([], after, some Head.malformed)
    let second ← nextJoined
    if c = some '#' then
      if isA isNameChar second then plainName second (some .size)
      else
        let third ← nextJoined
        if second = some '\x7d' || third != some '\x7d' then
          back third
          return special c second none
        else return special second third (some .size)
    else return special c second none

/-- The use of a parameter that stands behind its name, and the mark of an open word. -/
def headOf (c : Option Char) : Reading Head := do
  let fallback := fun (orEmpty : Bool) (c : Option Char) =>
    match c with
    | some '\x7d' => Head.followed
    | some '-' => Head.fallback .instead orEmpty
    | some '+' => .fallback .opposite orEmpty
    | some '?' => .fallback .complaint orEmpty
    | some '=' => .fallback .assigned orEmpty
    | _ => .malformed
  match c with
  | some '\x7d' => return .plain
  | some ':' => return fallback true (← nextJoined)
  | some '#' | some '%' =>
    let second ← nextJoined
    if second = c then return .trim (c = some '%') true
    else
      back second
      return .trim (c = some '%') false
  | c => return fallback false c

/-- A scan after the use of a parameter in braces. -/
def braces (s : Scan) : Reading Scan := do
  let (name, c, head) ← bracedName (← nextJoined)
  match head with
  | some .size =>
    back c
    return s.openParameter name (if c = some '\x7d' then .size else .malformed)
  | some head =>
    back c
    return s.openParameter name head
  | none => return s.openParameter name (← headOf c)

/-- A scan after a dollar sign. -/
def dollar (nested : Bool → Reading (Option Command)) (s : Scan) : Reading Scan := do
  let c ← nextJoined
  let starts := fun c => c == '(' || c == '\x7b' || isNameStart c || isSpecialParameter c
  if (← get).checks.mark || !isA starts c then
    back c
    return s.add (.char '$')
  else if c = some '(' then
    let second ← nextJoined
    if second = some '(' then
      return (s.add .opensSum).push { quoting := .sum, isDouble := true }
    else
      back second
      return s.add (.output (← nested true))
  else if c = some '\x7b' then braces s
  else if isA isNameStart c then
    let (name, c) ← run isNameChar c
    back c
    return s.openParameter name .plain
  else return s.openParameter c.toList .plain

/-- The text of a command between backquotes. -/
def backquoted (isDouble : Bool) : Reading Bytes :=
  untilDone (fun taken => do
    match ← nextJoined with
    | none => refuse "EOF in backquote substitution"
    | some '\x60' => return .inr taken.reverse
    | some '\\' =>
      let c ← next
      let isKept := fun c => c == '\\' || c == '\x60' || c == '$' || (isDouble && c == '\x22')
      let drops := isA isKept c
      return .inl (c.toList ++ (if drops then [] else ['\\']) ++ taken)
    | some c =>
      if c = '\n' then countLine
      return .inl (c :: taken)) []

/-- A command read from a text of its own. What follows the command is not looked at. -/
def inside (nested : Bool → Reading (Option Command)) (text : Bytes) :
    Reading (Option Command) := do
  let r ← get
  set { r with frames := [⟨text, none, false⟩], line := 1 }
  let c ← nested false
  modify fun after => { after with frames := r.frames, line := r.line }
  return c

/-! ## Words -/

/-- The character that starts a line of the text of a redirection, or nothing at the end of the
text, of which the last line is the mark. -/
def lineStart (mark : Bytes) (dropsTabs : Bool) (c : Option Char) : Reading (Option Char) := do
  let c ← if dropsTabs then behindTabs c else pure c
  let (matched, c) ← untilDone (fun (taken, left, c) =>
    match left, c with
    | m :: left, some d =>
      if m = d then return .inl (d :: taken, left, ← next) else return .inr (taken, some d)
    | _ :: _, none => return .inr (taken, none)
    | [], c => return .inr (taken, c)) (([] : Bytes), mark, c)
  if matched.length = mark.length && (c == none || c == some '\n') then
    countLine
    return none
  else
    back c
    for d in matched do back (some d)
    next

/-- What the end of a word is. -/
structure WordEnd where
  marks : List Mark
  isQuoted : Bool
  /-- The character behind the word. -/
  after : Option Char

/-- A step in the reading of a word. `mark?` is the end of the text, if it is the text of a
redirection. -/
def wordStep (nested : Bool → Reading (Option Command)) (mark? : Option (Bytes × Bool))
    (state : Scan × Option Char × Bool) : Reading ((Scan × Option Char × Bool) ⊕ WordEnd) := do
  let (s, c, isStart) := state
  let isText := mark?.isSome
  let c ← match mark?, isStart with
    | some (mark, dropsTabs), true => lineStart mark dropsTabs c
    | _, _ => pure c
  let goOnFrom := fun (isStart : Bool) (s : Scan) => do
    let c ← if s.level.quoting = .single then next else nextJoined
    return .inl (s, c, isStart)
  let goOn := goOnFrom false
  let finish : Reading ((Scan × Option Char × Bool) ⊕ WordEnd) := do
    if s.level.quoting = .sum then refuse "Missing '))'"
    else if s.level.quoting ≠ .bare && !isText then refuse "Unterminated quoted string"
    else if s.level.depth ≠ 0 then refuse "Missing '\x7d'"
    else return .inr ⟨s.marks.reverse, s.isQuoted, c⟩
  match c with
  | none => finish
  | some c =>
    match s.level.quoting.meaning c with
    | .newline =>
      if s.level.quoting = .bare && s.level.depth == 0 then finish
      else
        countLine
        goOnFrom true (s.add (.char c))
    | .plain => goOn (s.add (.char c))
    | .kept =>
      let isLiteral := !isText || s.level.isDouble || 0 < s.level.depth
      goOn (s.add (if isLiteral then .literal c else .char c))
    | .backslash =>
      match ← next with
      | none => goOn (s.add (.literal '\\'))
      | some d =>
        let escapes := d == '\\' || d == '\x60' || d == '$'
          || (d == '\x22' && !(isText && s.level.depth == 0))
          || (d == '\x7d' && 0 < s.level.depth)
        let s := if s.level.isDouble && !escapes then s.add (.literal '\\') else s
        goOn { s.add (.literal d) with isQuoted := true }
    | .opensSingle => goOn ((s.change ({ · with quoting := .single })).addQuotes isText)
    | .opensDouble =>
      goOn ((s.change ({ · with quoting := .double, isDouble := true })).toggle isText)
    | .closesQuotes => goOn (s.closeQuotes isText c)
    | .parameter => goOn (← dollar nested s)
    | .closesParameter => goOn s.closeParameter
    | .left => goOn ((s.add (.char c)).change fun l => { l with parentheses := l.parentheses + 1 })
    | .right =>
      if 0 < s.level.parentheses then
        goOn ((s.add (.char c)).change fun l => { l with parentheses := l.parentheses - 1 })
      else
        let d ← nextJoined
        if d = some ')' then goOn (s.pop.add .closesSum)
        else
          back d
          goOn (s.add (.char c))
    | .backquote =>
      if (← get).checks.mark then goOn (s.add (.char c))
      else
        let text ← backquoted s.level.isDouble
        goOn (s.add (.output (← inside nested text)))
    | .breaks => if s.level.depth = 0 then finish else goOn (s.add (.char c))

/-- A word that starts with a character, in the given quotes. -/
def readWord (nested : Bool → Reading (Option Command)) (quoting : Quoting)
    (mark? : Option (Bytes × Bool)) (c : Option Char) : Reading WordEnd :=
  untilDone (wordStep nested mark?)
    ({ level := { quoting, isDouble := quoting = .double } }, c, true)

/-! ## Redirections -/

/-- A redirection that starts with a character, for a descriptor if one is given. -/
def readArrow (descriptor? : Option Nat) (c : Char) : Reading Arrow := do
  let descriptor := descriptor?.getD (if c = '>' then 1 else 0)
  let second ← nextJoined
  if c = '>' then
    match second with
    | some '>' => return .file descriptor .append
    | some '|' => return .file descriptor .force
    | some '&' => return .copy descriptor true
    | second =>
      back second
      return .file descriptor .write
  else
    match second with
    | some '<' =>
      let third ← nextJoined
      if third = some '-' then return .text descriptor true
      else
        back third
        return .text descriptor false
    | some '&' => return .copy descriptor false
    | some '>' => return .file descriptor .both
    | second =>
      back second
      return .file descriptor .read

/-! ## Tokens -/

/-- The descriptor that the marks before an arrow give, if they can stand there. -/
def descriptor? : List Mark → Option (Option Nat)
  | [] => some none
  | [.char d] => if d.isDigit then some (some (d.toNat - '0'.toNat)) else none
  | _ => none

/-- A word that is no other token, and the redirection that it may turn out to be. -/
def wordToken (nested : Bool → Reading (Option Command)) (c : Option Char) : Reading Token := do
  let e ← readWord nested .bare none c
  let arrow := if e.isQuoted then none else
    (e.after.filter fun c => c == '<' || c == '>').bind fun c =>
      (descriptor? e.marks).map fun d => (c, d)
  match arrow with
  | some (c, d) =>
    let arrow ← readArrow d c
    modify fun r => { r with arrow }
    return .redirection
  | none =>
    back e.after
    modify fun r => { r with word := wordOfMarks false e.marks, isQuoted := e.isQuoted }
    return .word

/-- The next token, without regard to keywords and aliases. -/
def plainToken (nested : Bool → Reading (Option Command)) : Reading Token := do
  let r ← get
  if r.isBack then
    set { r with isBack := false }
    return r.token
  else
    let doubled := fun (c : Char) (two one : Token) => do
      let d ← nextJoined
      if d = some c then return Sum.inr two
      else
        back d
        return .inr one
    let token ← untilDone (fun _ => do
      match ← nextJoined with
      | none => return .inr Token.endOfFile
      | some c =>
        match c with
        | ' ' | '\t' => return .inl ()
        | '#' =>
          let (_, c) ← untilDone (fun _ => do
            let c ← next
            if c.all (· == '\n') then return .inr ((), c) else return .inl ()) ()
          back c
          return .inl ()
        | '\n' =>
          countLine
          return .inr .newline
        | '&' => doubled c .both .ampersand
        | '|' => doubled c .either .bar
        | ';' => doubled c .caseBreak .semicolon
        | '(' => return .inr .left
        | ')' => return .inr .right
        | c => return .inr (← wordToken nested (some c))) ()
    modify fun r => { r with token }
    return token

/-- A change of what is looked for in the next token. -/
def look (checks : Checks) : Reading Unit :=
  modify fun r => { r with checks }

/-- The token read last is read again. -/
def again : Reading Unit :=
  modify fun r => { r with isBack := true }

/-- The texts of the redirections of the line that has ended. -/
def readTexts (nested : Bool → Reading (Option Command)) : Reading Unit := do
  let r ← get
  set { r with awaited := [] }
  for a in r.awaited.reverse do
    let c ← if a.live then nextJoined else next
    let quoting := if a.live then Quoting.double else .single
    let e ← readWord nested quoting (some (a.mark, a.dropsTabs)) c
    let word := wordOfMarks true e.marks
    modify fun r => { r with texts := r.texts.setIfInBounds a.number word }

/-- The text of an alias that a word stands for, unless the word comes from that text. -/
def alias? (w : Bytes) (r : Reader) : Option Bytes :=
  if r.frames.any (·.alias? == some w) then none else r.aliases.lookup w

/-- The next token. -/
def readToken (nested : Bool → Reading (Option Command)) : Reading Token := do
  let wanted := (← get).checks
  untilDone (fun (wanted : Checks) => do
    let token ← plainToken nested
    let token ← if !wanted.newline then pure token else
      untilDone (fun (t : Token) => do
        if t = .newline then
          readTexts nested
          look {}
          return .inl (← plainToken nested)
        else return .inr t) token
    let r ← get
    let wanted : Checks :=
      { newline := wanted.newline || r.checks.newline
        keyword := wanted.keyword || r.checks.keyword
        aliased := wanted.aliased || r.checks.aliased
        mark := wanted.mark || r.checks.mark }
    look {}
    if token ≠ .word || r.isQuoted then return .inr token
    else
      let text := plainStart r.word
      let isWhole := text.length == r.word.length
      match (keyword? text).filter fun _ => wanted.keyword && isWhole with
      | some token =>
        modify fun r => { r with token }
        return .inr token
      | none =>
        match (alias? text r).filter fun _ => wanted.aliased && isWhole with
        | some value =>
          let endsBlank := value.getLast?.any fun c => c == ' ' || c == '\t'
          if value ≠ [] then
            modify fun r => { r with frames := ⟨value, some text, endsBlank⟩ :: r.frames }
          return .inl wanted
        | none => return .inr token) wanted

end Reading

end SuiteScope.Shell
