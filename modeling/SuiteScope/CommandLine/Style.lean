/-!
# Styled text

Text for a terminal may be in colour. A style is a list of terminal codes. Where the text itself
resets the style, the style is set again.
-/

namespace SuiteScope.CommandLine

/-- The codes of a style. -/
inductive Style
  | bold
  | dim
  | red
  | green
  | yellow
  | cyan
  | boldRed
  | boldGreen
  deriving DecidableEq, Repr

/-- The sequence that sets a style. -/
def Style.start (s : Style) : List Char :=
  let codes := match s with
    | .bold => "1"
    | .dim => "2"
    | .red => "31"
    | .green => "32"
    | .yellow => "33"
    | .cyan => "36"
    | .boldRed => "1;31"
    | .boldGreen => "1;32"
  '\x1b' :: '[' :: codes.toList ++ ['m']

/-- The sequence that resets every style. -/
def resetStyle : List Char := ['\x1b', '[', '0', 'm']

/-- A text with `start` put behind every reset. -/
def restyle (start : List Char) : List Char → List Char
  | '\x1b' :: '[' :: '0' :: 'm' :: s => resetStyle ++ start ++ restyle start s
  | c :: s => c :: restyle start s
  | [] => []

/-- A text in a style, if there are colours. -/
def styled (colour : Bool) (style : Style) (s : String) : String :=
  if colour then
    String.ofList (style.start ++ restyle style.start s.toList ++ resetStyle)
  else s

/-- Whether there are colours in text that goes to no terminal, where the environment has to force
them. -/
def forcesColour (lookup : String → Option String) : Bool :=
  (lookup "CLICOLOR_FORCE").any (· ≠ "0")

end SuiteScope.CommandLine
