import Graft.Grammar.Cursor
import Graft.Text.Digit

/-!
# Lexemes

The lexical classes of JavaScript, each as the number of characters it covers at the front of a
text: names, numbers, strings, regular expressions and punctuators.
-/

namespace Graft.Grammar

/-- Characters that end a name besides blanks and control characters. -/
def nameStops : List Char := ":;`\"'@#.,|^&<=>+-*/\\%?!~()[]\x7b\x7d".toList

def isNameChar (c : Char) : Bool :=
  0x1f < c.toNat && !Text.isBlank c && !nameStops.contains c

/-- The length of an escaped character of a name: four hexadecimal digits or any number of them
in braces. -/
def nameEscapeLength? : List Char → Option Nat
  | '\\' :: 'u' :: '\x7b' :: rest =>
    let digits := rest.takeWhile Text.isHexDigit
    if !digits.isEmpty && (rest.drop digits.length).head? == some '\x7d' then
      some (digits.length + 4)
    else none
  | '\\' :: 'u' :: a :: b :: c :: d :: _ =>
    if Text.isHexDigit a && Text.isHexDigit b && Text.isHexDigit c && Text.isHexDigit d then some 6
    else none
  | _ => none

/-- The length of the characters that may continue a name; `skip` characters belong to an escape
already read. -/
def nameTailLength : Nat → List Char → Nat
  | _, [] => 0
  | skip + 1, _ :: rest => nameTailLength skip rest + 1
  | 0, c :: rest =>
    if isNameChar c then nameTailLength 0 rest + 1
    else match nameEscapeLength? (c :: rest) with
      | some n => nameTailLength (n - 1) rest + 1
      | none => 0

/-- A name starts with anything that may continue it except a digit. -/
def nameLength? : List Char → Option Nat
  | [] => none
  | c :: rest =>
    if c.isDigit then none
    else match nameTailLength 0 (c :: rest) with
      | 0 => none
      | n => some n

/-- Words that are never names of variables. -/
def reservedWords : List String :=
  ["break", "case", "catch", "class", "const", "continue", "debugger", "default", "delete", "do",
    "else", "export", "extends", "false", "finally", "for", "function", "if", "import", "in",
    "instanceof", "new", "null", "return", "super", "switch", "this", "throw", "true", "try",
    "typeof", "var", "void", "while", "with"]

def isReserved (word : String) : Bool := reservedWords.contains word

/-- The length of a run of digits in which single separators may stand between digits. -/
def digitRun (isDigit : Char → Bool) : List Char → Nat
  | [] => 0
  | '_' :: c :: rest => if isDigit c then digitRun isDigit rest + 2 else 0
  | c :: rest => if isDigit c then digitRun isDigit rest + 1 else 0

/-- A run of digits that starts with a digit. -/
def digitsLength (isDigit : Char → Bool) (text : List Char) : Nat :=
  match text with
  | [] => 0
  | c :: _ => if isDigit c then digitRun isDigit text else 0

/-- The length of an exponent, or 0. -/
def exponentLength : List Char → Nat
  | mark :: rest =>
    if mark == 'e' || mark == 'E' then
      match rest with
      | sign :: digits =>
        if sign == '+' || sign == '-' then
          match digitsLength Char.isDigit digits with
          | 0 => 0
          | n => n + 2
        else match digitsLength Char.isDigit rest with
          | 0 => 0
          | n => n + 1
      | [] => 0
    else 0
  | [] => 0

/-- A whole number that may be followed by a fraction or an exponent: `0`, or a number whose
first digit, after at most one zero, is not a zero. -/
def takesFraction : List Char → Bool
  | ['0'] => true
  | '0' :: c :: _ => '1' ≤ c && c ≤ '9'
  | c :: _ => '1' ≤ c && c ≤ '9'
  | [] => false

def bigMark (text : List Char) : Nat := if text.head? == some 'n' then 1 else 0

def radixDigits? (mark : Char) : Option (Char → Bool) :=
  if mark == 'x' || mark == 'X' then some Text.isHexDigit
  else if mark == 'o' || mark == 'O' then some fun c => '0' ≤ c && c ≤ '7'
  else if mark == 'b' || mark == 'B' then some fun c => c == '0' || c == '1'
  else none

def decimalLength? (text : List Char) : Option Nat :=
  match digitsLength Char.isDigit text with
  | 0 =>
    match text with
    | '.' :: rest =>
      match digitsLength Char.isDigit rest with
      | 0 => none
      | n => some (1 + n + exponentLength (rest.drop n))
    | _ => none
  | n =>
    let after := text.drop n
    if bigMark after = 1 then some (n + 1)
    else if takesFraction (text.take n) then
      match after with
      | '.' :: fraction =>
        let f := digitsLength Char.isDigit fraction
        some (n + 1 + f + exponentLength (fraction.drop f))
      | _ => some (n + exponentLength after)
    else some n

def numberLength? (text : List Char) : Option Nat :=
  match text with
  | '0' :: mark :: rest =>
    match radixDigits? mark with
    | some isDigit =>
      match digitsLength isDigit rest with
      | 0 => decimalLength? text
      | n => some (2 + n + bigMark (rest.drop n))
    | none => decimalLength? text
  | _ => decimalLength? text

/-- The length of what follows the backslash of an escape in a string or template: one
character, or the digits that `x` and `u` ask for, or a line end of two characters. -/
def escapeTailLength? : List Char → Option Nat
  | [] => none
  | 'x' :: a :: b :: _ => if Text.isHexDigit a && Text.isHexDigit b then some 3 else none
  | 'x' :: _ => none
  | 'u' :: rest => (nameEscapeLength? ('\\' :: 'u' :: rest)).map (· - 1)
  | '\r' :: c :: _ => if Text.isLineEnd c then some 2 else some 1
  | '?' :: c :: _ => if Text.isLineEnd c then some 2 else some 1
  | _ => some 1

/-- The length of the rest of a string up to and including its closing quote; `skip` characters
belong to an escape already read. -/
def stringTailLength? (quote : Char) : Nat → List Char → Option Nat
  | _, [] => none
  | skip + 1, _ :: rest => (stringTailLength? quote skip rest).map (· + 1)
  | 0, c :: rest =>
    if c = quote then some 1
    else if c = '\n' ∨ c = '\r' then none
    else if c = '\\' then
      match escapeTailLength? rest with
      | some n => (stringTailLength? quote n rest).map (· + 1)
      | none => none
    else (stringTailLength? quote 0 rest).map (· + 1)

def stringLength? : List Char → Option Nat
  | c :: rest =>
    if c = '\'' ∨ c = '"' then (stringTailLength? c 0 rest).map (· + 1) else none
  | [] => none

/-- The part of a regular expression that is being read. -/
inductive RegexMode where
  | body
  | bodyEscape
  | set
  | setEscape

/-- The length of the rest of a regular expression up to and including its closing slash. -/
def regexTailLength? : RegexMode → List Char → Option Nat
  | _, [] => none
  | mode, c :: rest =>
    if c = '\n' then none
    else
      match mode with
      | .body =>
        if c = '/' then some 1
        else if c = '\\' then (regexTailLength? .bodyEscape rest).map (· + 1)
        else if c = '[' then (regexTailLength? .set rest).map (· + 1)
        else (regexTailLength? .body rest).map (· + 1)
      | .bodyEscape => (regexTailLength? .body rest).map (· + 1)
      | .set =>
        if c = ']' then (regexTailLength? .body rest).map (· + 1)
        else if c = '\\' then (regexTailLength? .setEscape rest).map (· + 1)
        else (regexTailLength? .set rest).map (· + 1)
      | .setEscape => (regexTailLength? .set rest).map (· + 1)

/-- A regular expression is not empty; its flags are small letters. -/
def regexLength? : List Char → Option Nat
  | '/' :: rest =>
    match regexTailLength? .body rest with
    | some n =>
      if n = 1 then none
      else some (1 + n + ((rest.drop n).takeWhile fun c => 'a' ≤ c && c ≤ 'z').length)
    | none => none
  | _ => none

/-- Punctuators, longer ones before those they start with. -/
def punctuators : List String :=
  [">>>=", "...", "===", "!==", "**=", "<<=", ">>=", ">>>", "&&=", "||=", "??=", "=>", "==", "!=",
    "<=", ">=", "&&", "||", "??", "?.", "++", "--", "+=", "-=", "*=", "/=", "%=", "&=", "|=", "^=",
    "<<", ">>", "**", "\x7b", "\x7d", "(", ")", "[", "]", ";", ",", "<", ">", "+", "-", "*", "/",
    "%", "&", "|", "^", "!", "~", "?", ":", "=", ".", "@", "`"]

/-- The longest punctuator at the front of a text.  A question mark before a decimal fraction
stands alone. -/
def punctuator? (text : List Char) : Option String :=
  match text with
  | '?' :: '.' :: c :: _ => if c.isDigit then some "?" else some "?."
  | _ => punctuators.find? (startsWith text)

namespace Cursor

/-- The next word, reserved or not, and the place behind it. -/
def word? (cur : Cursor) : Option (String × Cursor) :=
  let start := cur.skip
  (nameLength? start.rest).map fun n =>
    let stop := start.advance n
    (start.textTo stop, stop)

/-- The next punctuator and the place behind it. -/
def mark? (cur : Cursor) : Option (String × Cursor) :=
  let start := cur.skip
  (punctuator? start.rest).map fun mark => (mark, start.advance mark.length)

def nextWord (cur : Cursor) : String := (cur.word?.map Prod.fst).getD ""

def nextMark (cur : Cursor) : String := (cur.mark?.map Prod.fst).getD ""

def nextChar (cur : Cursor) : Option Char := cur.skip.rest.head?

end Cursor
end Graft.Grammar
