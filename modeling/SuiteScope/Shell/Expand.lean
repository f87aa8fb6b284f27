import SuiteScope.Shell.Arithmetic
import SuiteScope.Shell.Field
import SuiteScope.Shell.Glob
import SuiteScope.Shell.Options

/-!
# What words come to

The pieces of a word are replaced by what they stand for : parameters by their values, sums by
their results and commands by their output. `chunksOf` does this for every use of a word.
`fieldsOfWord` cuts the result into fields and puts the paths that match in the place of a pattern,
while `textOfWord` keeps it whole. The output of a command is found by the computation `output`.
-/

namespace SuiteScope.Shell

/-- What a word is wanted for. -/
structure Purpose where
  /-- It comes to several fields. -/
  isCut : Bool := false
  /-- A tilde at its start is the home directory. -/
  tilde : Bool := false
  /-- So is a tilde behind its first equals sign, and behind a colon. -/
  tildeInside : Bool := false
  /-- It is given with a parameter that is not in quotes, so its own text is cut as well. -/
  isOperand : Bool := false
  /-- All of it counts as quoted. -/
  isQuoted : Bool := false

/-- The purpose of a word that comes to fields. -/
def Purpose.fields : Purpose := { isCut := true, tilde := true }

/-- The purpose of a word that stays whole. -/
def Purpose.whole : Purpose := { tilde := true }

/-- The purpose of an assignment. -/
def Purpose.assignment : Purpose := { tildeInside := true }

/-- The value of a parameter : several texts, and where they may be cut. -/
structure Value where
  cuts : Cuts
  text : Bytes

namespace Step

/-! ## Parameters -/

/-- The separators of fields. -/
def separators : Step Bytes := do
  return (← value? "IFS".toList).getD defaultSeparators

/-- The values of all arguments, as a parameter gives them. -/
def allArguments (isCut isQuoted isList : Bool) : Step Value := do
  let arguments := (← process).arguments
  let cuts : Cuts := if isQuoted then .never else .atSeparators
  if isQuoted && isList && isCut then
    let cuts : Cuts := if arguments.isEmpty then .never else .betweenValues
    return ⟨cuts, ['\x00'].intercalate arguments⟩
  else
    let separators ← value? "IFS".toList
    let joint := match separators with
      | none => [' ']
      | some s => if isCut && !isQuoted then ['\x00'] else s.take 1
    return ⟨cuts, joint.intercalate arguments⟩

/-- The value of a parameter, if it has one. -/
def parameter? (name : Bytes) (isCut isQuoted : Bool) : Step (Option Value) := do
  let p ← process
  let cuts : Cuts := if isQuoted then .never else .atSeparators
  let one := fun (text : Option Bytes) => text.map (⟨cuts, ·⟩)
  match name with
  | ['@'] => return some (← allArguments isCut isQuoted true)
  | ['*'] => return some (← allArguments isCut isQuoted false)
  | ['?'] => return one (some (decimal p.status))
  | ['#'] => return one (some (decimal p.arguments.length))
  | ['$'] => return one (some (decimal p.root))
  | ['!'] => return one (p.lastAside.map fun n => decimal n)
  | ['-'] => return one (some (optionLetters p.options))
  | name =>
    if name.head?.any Char.isDigit then
      let n := (digitRun 10 0 name).1
      return one (if n = 0 then some p.name else p.arguments[n - 1]?)
    else return one (← value? name)

/-- The complaint about a parameter that has no value. -/
def failUnset {α : Type} (name : Bytes) (message : Bytes) : Step α :=
  fail (name ++ [':', ' '] ++ message)

/-! ## Text -/

/-- Whether a quoted byte would have a special meaning without quotes. -/
def isKept (c : Char) : Bool :=
  ['!', '*', '?', '[', '=', '~', ':', '/', '-', ']', '\\'].contains c

/-- The glyphs of a value. -/
def glyphsOf (isQuoted : Bool) (text : Bytes) : List Glyph :=
  text.map fun c => .char c (isQuoted && isKept c)

/-- The chunk of a value. -/
def Value.chunk (isQuoted : Bool) (v : Value) : Chunk :=
  ⟨v.cuts, glyphsOf isQuoted v.text⟩

/-- The home directories of users. -/
def homes : List (String × String) :=
  [("root", "/root"), ("daemon", "/usr/sbin"), ("bin", "/bin"), ("sys", "/dev"),
    ("nobody", "/nonexistent")]

/-- The home directory of the user whose name follows a tilde. -/
def homeOf (user : Bytes) : Step (Option Bytes) :=
  if user.isEmpty then value? "HOME".toList
  else pure ((homes.lookup (String.ofList user)).map String.toList)

/-- The name that follows a tilde, and the pieces behind it. There is none if something in it is
quoted or replaced. -/
def userName? (untilColon : Bool) : List Piece → Option (Bytes × List Piece)
  | [] => some ([], [])
  | .char c false q :: rest =>
    if c = '/' ∨ (c = ':' ∧ untilColon) then some ([], .char c false q :: rest)
    else (userName? untilColon rest).map fun (name, rest) => (c :: name, rest)
  | _ => none

/-- Whether a piece is a tilde that may stand for a directory. -/
def isTilde : Piece → Bool
  | .char c isLiteral _ => c == '~' && !isLiteral
  | _ => false

/-- A word whose pieces are being replaced : the chunks so far, last one first and each with its
last glyph first, and what is known of the text so far. -/
structure Expansion where
  chunks : List Chunk := []
  /-- Whether the chunk added last is text that may be cut. -/
  isOpenText : Bool := false
  seesEquals : Bool := false
  atTilde : Bool

/-- The expansion with a chunk. -/
def Expansion.add (e : Expansion) (c : Chunk) : Expansion :=
  { e with
    chunks := { c with glyphs := c.glyphs.reverse } :: e.chunks
    isOpenText := false
    atTilde := false }

/-- The expansion with a glyph of the word's own text. -/
def Expansion.addText (e : Expansion) (isCut : Bool) (g : Glyph) : Expansion :=
  let chunks :=
    match isCut, e.isOpenText, e.chunks with
    | true, true, c :: rest => { c with glyphs := g :: c.glyphs } :: rest
    | true, _, chunks => ⟨.atSeparators, [g]⟩ :: chunks
    | false, _, ⟨.never, gs⟩ :: rest => ⟨.never, g :: gs⟩ :: rest
    | false, _, chunks => ⟨.never, [g]⟩ :: chunks
  { e with chunks, isOpenText := isCut, atTilde := false }

/-- The expansion after a character of the word's own text, which may make a tilde special. -/
def Expansion.notice (e : Expansion) (purpose : Purpose) (c : Char) (isLiteral : Bool) :
    Expansion :=
  if isLiteral || !purpose.tildeInside then e
  else if c = '=' && !e.seesEquals then { e with seesEquals := true, atTilde := true }
  else if c = ':' then { e with atTilde := true }
  else e

/-! ## Pieces -/

/-- Whether a parameter counts as having a value. -/
def counts (orEmpty : Bool) (v : Option Value) : Bool :=
  v.any fun v => !(orEmpty && v.text.isEmpty)

/-- The chunks of a parameter, where `inner` finds those of the word that is given with it. -/
def parameterChunks (inner : Purpose → Word → Step (List Chunk)) (purpose : Purpose)
    (name : Bytes) (head : Head) (word : Word) (isQuoted : Bool) : Step (List Chunk) := do
  let value ← parameter? name purpose.isCut isQuoted
  let chunk := fun (v : Option Value) => (v.map (Value.chunk isQuoted)).toList
  let operand : Purpose :=
    { purpose with tilde := true, isOperand := !isQuoted, isQuoted }
  let strict : Step Unit := do
    if !counts (head == .followed) value && (← hasOption "nounset") then
      failUnset name "parameter not set".toList
  match head with
  | .malformed => fail "Bad substitution".toList
  | .plain | .followed =>
    strict
    return chunk value
  | .size =>
    strict
    let n := (value.map fun v => v.text.length).getD 0
    return [Value.chunk isQuoted ⟨if isQuoted then .never else .atSeparators, decimal n⟩]
  | .fallback kind orEmpty =>
    let isThere := counts orEmpty value
    match kind with
    | .instead => if isThere then return chunk value else inner operand word
    | .opposite =>
      if isThere then inner operand word
      else return [⟨if isQuoted then .never else .atSeparators, []⟩]
    | .assigned =>
      if isThere then return chunk value
      else
        let text := Chunk.bytes (← inner .whole word)
        if name == ['@'] || name == ['*'] then fail (name ++ ": bad variable name".toList)
        assign name text
        return chunk (← parameter? name purpose.isCut isQuoted)
    | .complaint =>
      if isThere then return chunk value
      else if word.isEmpty then
        failUnset name ("parameter not set".toList ++ if orEmpty then " or null".toList else [])
      else failUnset name (Chunk.bytes (← inner .whole word))
  | .trim atEnd longest =>
    strict
    match value with
    | none => return []
    | some v =>
      let pattern := patternOf ((← inner .whole word).flatMap (·.glyphs))
      let pattern := Pattern.compile pattern
      let trim := if atEnd then Pattern.trimEnd else Pattern.trimStart
      return chunk (some { v with text := trim longest pattern v.text })

/-- The result of a sum. -/
def sumResult (text : Bytes) : Step Bytes := do
  let bindings := (← process).bindings
  let scope : Arithmetic.Scope := ⟨fun name => (bindings.lookup name).bind (·.value), false⟩
  match Arithmetic.evaluate scope text with
  | .ok (n, assigned) =>
    for (name, n) in assigned do assign name (decimal n)
    return decimal n
  | .error .overflow => throw (.killed 8)
  | .error fault => fail (fault.message text)

/-- The chunks of a piece that is replaced. -/
def pieceChunks (output : Option Command → Step Bytes)
    (inner : Purpose → Word → Step (List Chunk)) (purpose : Purpose) :
    Piece → Step (List Chunk)
  | .parameter name head word isQuoted =>
    parameterChunks inner purpose name head word (isQuoted || purpose.isQuoted)
  | .sum expression isQuoted => do
    let isQuoted := isQuoted || purpose.isQuoted
    let text := Chunk.bytes (← inner {} expression)
    return [Value.chunk isQuoted ⟨if isQuoted then .never else .atSeparators, ← sumResult text⟩]
  | .output command isQuoted => do
    let isQuoted := isQuoted || purpose.isQuoted
    let text ← output command
    return [Value.chunk isQuoted ⟨if isQuoted then .never else .atSeparators, text⟩]
  | _ => return []

/-- The expansion of the rest of a word. -/
def expandRest (output : Option Command → Step Bytes)
    (inner : Purpose → Word → Step (List Chunk)) (purpose : Purpose) :
    (fuel : Nat) → Expansion → List Piece → Step Expansion
  | 0, e, _ | _, e, [] => return e
  | fuel + 1, e, piece :: rest => do
    let user? := if e.atTilde && isTilde piece then userName? purpose.tildeInside rest else none
    let home? ← match user? with
      | some (user, rest) => pure ((← homeOf user).map (·, rest))
      | none => pure none
    match home?, piece with
    | some (home, rest), _ =>
      expandRest output inner purpose fuel (e.add ⟨.never, glyphsOf true home⟩) rest
    | none, .char c isLiteral isQuoted =>
      let isCut := purpose.isOperand && !isLiteral && !isQuoted
      let e := (e.addText isCut (.char c isLiteral)).notice purpose c isLiteral
      expandRest output inner purpose fuel e rest
    | none, .quotes => expandRest output inner purpose fuel (e.addText false .mark) rest
    | none, piece =>
      let chunks ← pieceChunks output inner purpose piece
      let e := chunks.foldl Expansion.add e
      expandRest output inner purpose fuel { e with atTilde := false } rest

/-- The chunks that a word comes to, in which words nest less than `depth` deep. -/
def chunksTo (output : Option Command → Step Bytes) :
    (depth : Nat) → Purpose → Word → Step (List Chunk)
  | 0, _, _ => throw (.killed 11)
  | depth + 1, purpose, word => do
    let start : Expansion := { atTilde := purpose.tilde }
    let e ← expandRest output (chunksTo output depth) purpose (word.length + 1) start word
    return e.chunks.reverse.map fun c => { c with glyphs := c.glyphs.reverse }

/-- The chunks that a word comes to. -/
def chunksOf (output : Option Command → Step Bytes) (purpose : Purpose) (word : Word) :
    Step (List Chunk) :=
  chunksTo output 1000 purpose word

/-! ## Words -/

/-- The file system that the process sees. -/
def files : Step FileSystem := do
  let s ← get
  return ⟨s.world.top, s.process.here⟩

/-- The paths that match a field, or the field itself if there are none. -/
def pathsOf (field : List Glyph) : Step (List Bytes) := do
  let asItIs := [bytesOf field]
  if ← hasOption "noglob" then return asItIs
  if !(bytesOf field).any (fun c => c == '*' || c == '?' || c == '[') then return asItIs
  let found := glob (← files) (patternOf field)
  return if found.isEmpty then asItIs else found

/-- The fields that a word comes to. -/
def fieldsOfWord (output : Option Command → Step Bytes) (word : Word) : Step (List Bytes) := do
  let chunks ← chunksOf output .fields word
  let fields := fieldsOf (← separators) chunks
  return (← fields.mapM pathsOf).flatten

/-- The text that a word comes to. -/
def textOfWord (output : Option Command → Step Bytes) (purpose : Purpose) (word : Word) :
    Step Bytes := do
  return Chunk.bytes (← chunksOf output purpose word)

/-- The pattern that a word comes to. -/
def patternOfWord (output : Option Command → Step Bytes) (word : Word) :
    Step (List Pattern.Element) := do
  let chunks ← chunksOf output { tilde := true } word
  return Pattern.compile (patternOf (chunks.flatMap (·.glyphs)))

end Step

end SuiteScope.Shell
