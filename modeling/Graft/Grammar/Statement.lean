import Graft.Grammar.Pattern

/-!
# Statements

Statements, declarations, and the statements of modules.  Modules, classes and `with` keep their
source text.
-/

namespace Graft.Grammar

def expressionStatement (g : Productions) (origin : Cursor) : Parser Node := do
  let inner ← g.expressions true
  semicolon true
  node origin .expressionStatement [(.expression, .node inner)]

/-- A declared name with its initial value, and whether it has one. -/
def declarator (g : Productions) : Parser (Node × Bool) := do
  let origin ← start
  let name ← binding g
  if ← hasMark "=" then
    let value ← g.expression true
    let whole ← node origin .variableDeclarator [(.id, .node name), (.init, .node value.node)]
    return (whole, true)
  else
    let whole ← node origin .variableDeclarator [(.id, .node name), (.init, .absent)]
    return (whole, false)

/-- Ends a declaration.  Another declaration on the same line shows that a semicolon is
missing. -/
def declarationEnd (afterOperand : Bool) : Parser Unit := do
  let cur ← get
  match cur.automaticEnd? afterOperand with
  | some stop => set stop
  | none =>
    if ["var", "let", "const"].contains cur.nextWord then throw (.missingSemicolon cur.place)
    mark ";"

/-- The declared names behind a keyword, and the end of the declaration. -/
def declarators (g : Productions) : Parser (List Node) := do
  let (first, filled) ← declarator g
  let more ← whileMore (fun cur => cur.nextMark == ",") do
    mark ","
    declarator g
  declarationEnd ((more.map Prod.snd).getLast?.getD filled)
  return first :: more.map Prod.fst

def variableDeclaration (g : Productions) (origin : Cursor) (word : String) : Parser Node := do
  keyword word
  let list ← declarators g
  node origin .variableDeclaration [(.kind, .text word), (.declarations, .list list)]

/-- A name follows at the cursor. -/
def namesNext (cur : Cursor) : Bool :=
  match cur.word? with
  | some (word, _) => !isReserved word
  | none => false

/-- The word `let` at the start declares something. -/
def declaresByLet (cur : Cursor) : Bool :=
  match cur.word? with
  | some (_, after) =>
    (after.automaticEnd? true).isNone &&
      (namesNext after || after.nextMark == "[" || after.nextMark == "\x7b")
  | none => false

/-- A named function stands behind the word `function`. -/
def namesFunction (afterWord : Cursor) : Bool :=
  match afterWord.mark? with
  | some ("*", inner) => namesNext inner
  | _ => namesNext afterWord

/-- A function declaration starts here. -/
def declaresFunction (cur : Cursor) : Bool :=
  match cur.word? with
  | some ("function", after) => namesFunction after
  | some ("async", after) =>
    (after.automaticEnd? true).isNone &&
      (match after.word? with
        | some ("function", inner) => namesFunction inner
        | _ => false)
  | _ => false

def functionDeclaration (g : Productions) (origin : Cursor) : Parser Node := do
  let async ← hasKeyword "async"
  keyword "function"
  let generator ← hasMark "*"
  let name ← variableName
  let params ← parameters g
  let body ← g.block
  node origin .functionDeclaration (functionSlots name params body async generator)

/-- A class declaration starts here. -/
def declaresClass (cur : Cursor) : Bool :=
  match cur.word? with
  | some ("class", after) => namesNext after
  | _ => false

/-- A declaration of resources starts here. -/
def declaresUsing (cur : Cursor) : Bool :=
  match cur.word? with
  | some ("using", after) => (after.automaticEnd? true).isNone && namesNext after
  | some ("await", after) =>
    match after.word? with
    | some ("using", inner) => namesNext inner
    | _ => false
  | _ => false

def usingDeclaration (g : Productions) (origin : Cursor) : Parser Node := do
  let _ ← hasKeyword "await"
  keyword "using"
  let _ ← declarators g
  rawNode origin

/-- A declaration, if one starts here. -/
def declaration? (g : Productions) (origin : Cursor) : Parser (Option Node) := do
  let word := origin.nextWord
  if word == "var" || word == "const" then some <$> variableDeclaration g origin word
  else if word == "let" && declaresByLet origin then some <$> variableDeclaration g origin word
  else if declaresFunction origin then some <$> functionDeclaration g origin
  else if origin.nextMark == "@" || declaresClass origin then
    decorators g
    classTail g
    some <$> rawNode origin
  else if declaresUsing origin then attempt (usingDeclaration g origin)
  else return none

def ifStatement (g : Productions) (origin : Cursor) : Parser Node := do
  keyword "if"
  let test ← g.parenthesized
  let consequent ← g.statement
  let alternate ← if ← hasKeyword "else" then some <$> g.statement else pure none
  node origin .ifStatement
    [(.test, .node test), (.consequent, .node consequent), (.alternate, .ofOption alternate)]

/-- A variable declared in the head of a loop over values; the declaration and its single
declarator are placed at the name. -/
def loopVariable (word : String) (name : Node) : Node :=
  let declarator := Node.mk .variableDeclarator name.span [(.id, .node name), (.init, .absent)]
  .mk .variableDeclaration name.span [(.kind, .text word), (.declarations, .list [declarator])]

/-- Passes over an initial value in the head of a loop over values, which plays no part in the
tree.  A value before `in` is without relations. -/
def skipInitial (g : Productions) : Parser Unit := do
  if ← hasMark "=" then
    let beforeOf : Parser Operand := do
      let value ← g.expression false
      if (← get).nextWord == "of" then return value else unexpected
    let _ ← either beforeOf (g.operation shiftStrength false)

/-- The head of a loop over values: its left side, its kind and its right side. -/
def valueLoopHead (g : Productions) : Parser (Node × Kind × Node) := do
  mark "("
  let cur ← start
  let word := cur.nextWord
  let left ←
    if ["var", "let", "const"].contains word then
      keyword word
      let name ← binding g
      if word == "var" then skipInitial g
      pure (loopVariable word name)
    else if cur.nextMark == "(" then
      either g.parenthesized (target g)
    else either g.pattern (target g)
  let kind ←
    if ← hasKeyword "of" then pure Kind.forOfStatement
    else
      keyword "in"
      pure Kind.forInStatement
  let right ← g.expressions false
  mark ")"
  return (left, kind, right)

/-- Expressions up to a semicolon, or nothing. -/
def clause (g : Productions) : Parser (Option Node) := do
  if ← hasMark ";" then return none
  let inner ← g.expressions false
  mark ";"
  return some inner

/-- The head of a counting loop. -/
def countingLoopHead (g : Productions) : Parser (Option Node × Option Node × Option Node) := do
  mark "("
  let cur ← start
  let word := cur.nextWord
  let init ←
    if ["var", "const"].contains word || (word == "let" && declaresByLet cur) then
      some <$> variableDeclaration g cur word
    else clause g
  let test ← clause g
  let update ← if (← get).nextMark == ")" then pure none else some <$> g.expressions false
  mark ")"
  return (init, test, update)

def forStatement (g : Productions) (origin : Cursor) : Parser Node := do
  keyword "for"
  let _ ← hasKeyword "await"
  match ← attempt (valueLoopHead g) with
  | some (left, kind, right) =>
    let body ← g.statement
    node origin kind [(.left, .node left), (.right, .node right), (.body, .node body)]
  | none =>
    let (init, test, update) ← countingLoopHead g
    let body ← g.statement
    node origin .forStatement
      [(.init, .ofOption init), (.test, .ofOption test), (.update, .ofOption update),
        (.body, .node body)]

def whileStatement (g : Productions) (origin : Cursor) : Parser Node := do
  keyword "while"
  let test ← g.parenthesized
  let body ← g.statement
  node origin .whileStatement [(.test, .node test), (.body, .node body)]

/-- The semicolon behind the condition may be left out anywhere. -/
def doStatement (g : Productions) (origin : Cursor) : Parser Node := do
  keyword "do"
  let body ← g.statement
  keyword "while"
  let test ← g.parenthesized
  let _ ← attempt (semicolon false)
  node origin .doWhileStatement [(.body, .node body), (.test, .node test)]

def returnStatement (g : Productions) (origin : Cursor) : Parser Node := do
  keyword "return"
  match ← attempt (semicolon false) with
  | some _ => node origin .returnStatement [(.argument, .absent)]
  | none =>
    let argument ← g.expressions true
    semicolon true
    node origin .returnStatement [(.argument, .node argument)]

def throwStatement (g : Productions) (origin : Cursor) : Parser Node := do
  keyword "throw"
  let argument ← g.expressions true
  semicolon true
  node origin .throwStatement [(.argument, .node argument)]

def jumpStatement (origin : Cursor) (word : String) (kind : Kind) : Parser Node := do
  keyword word
  match ← attempt (semicolon false) with
  | some _ => node origin kind [(.label, .absent)]
  | none =>
    let label ← variableName
    semicolon false
    node origin kind [(.label, .node label)]

def catchClause (g : Productions) : Parser Node := do
  let origin ← start
  keyword "catch"
  let param ←
    if ← hasMark "(" then
      let name ← binding g
      mark ")"
      pure (some name)
    else pure none
  let body ← g.block
  node origin .catchClause [(.param, .ofOption param), (.body, .node body)]

def tryStatement (g : Productions) (origin : Cursor) : Parser Node := do
  keyword "try"
  let block ← g.block
  let handler ← if (← get).nextWord == "catch" then some <$> catchClause g else pure none
  let finalizer ← if ← hasKeyword "finally" then some <$> g.block else pure none
  node origin .tryStatement
    [(.block, .node block), (.handler, .ofOption handler), (.finalizer, .ofOption finalizer)]

def switchCase (g : Productions) : Parser Node := do
  let origin ← start
  let test ←
    if ← hasKeyword "default" then pure none
    else
      keyword "case"
      some <$> g.expressions false
  mark ":"
  let inCase (cur : Cursor) : Bool :=
    cur.nextMark != "\x7d" && !(["case", "default"].contains cur.nextWord)
  let body ← whileMore inCase g.statement
  node origin .switchCase [(.test, .ofOption test), (.consequent, .list body)]

def switchStatement (g : Productions) (origin : Cursor) : Parser Node := do
  keyword "switch"
  let discriminant ← g.parenthesized
  mark "\x7b"
  let cases ← whileMore (fun cur => cur.nextMark != "\x7d") (switchCase g)
  mark "\x7d"
  node origin .switchStatement [(.discriminant, .node discriminant), (.cases, .list cases)]

def withStatement (g : Productions) (origin : Cursor) : Parser Node := do
  keyword "with"
  let _ ← g.parenthesized
  let _ ← g.statement
  rawNode origin

/-- A name of an import or export: any word, or a string. -/
def moduleName : Parser Unit := do
  let cur ← start
  match stringLength? cur.rest with
  | some _ =>
    let _ ← stringLiteral
  | none =>
    let _ ← anyName

/-- Names in braces, each perhaps renamed. -/
def moduleNames : Parser Unit := do
  mark "\x7b"
  let _ ← whileMore (fun cur => cur.nextMark != "\x7d") do
    moduleName
    if ← hasKeyword "as" then moduleName
    if (← get).nextMark != "\x7d" then mark ","
  mark "\x7d"

def fromClause : Parser Unit := do
  keyword "from"
  let _ ← stringLiteral

/-- All names under one name, or names in braces. -/
def importedNames : Parser Unit := do
  if ← hasMark "*" then
    keyword "as"
    let _ ← variableName
  else moduleNames

def importStatement (g : Productions) (origin : Cursor) : Parser Node := do
  keyword "import"
  let cur ← start
  match stringLength? cur.rest with
  | some _ =>
    let _ ← stringLiteral
  | none =>
    if cur.word?.isSome then
      let _ ← variableName
      if ← hasMark "," then importedNames
    else importedNames
    fromClause
  if ← hasKeyword "with" then
    let _ ← object g
  semicolon false
  rawNode origin

def exportStatement (g : Productions) (origin : Cursor) : Parser Node := do
  keyword "export"
  let cur ← start
  if cur.nextMark == "*" then
    mark "*"
    if ← hasKeyword "as" then moduleName
    fromClause
    semicolon false
  else if cur.nextMark == "\x7b" then
    moduleNames
    if (← get).nextWord == "from" then fromClause
    semicolon false
  else
    let isDefault ← hasKeyword "default"
    let origin ← start
    match ← declaration? g origin with
    | some _ => pure ()
    | none =>
      if isDefault then
        let _ ← g.expression true
        semicolon true
      else unexpected
  rawNode origin

/-- What starts with a brace: an object where it reads as one with members, or where an operator
follows empty braces that no statement starts with; a block otherwise. -/
def braceStatement (g : Productions) (origin : Cursor) : Parser Node := do
  match origin.mark? with
  | some (_, inner) =>
    if opensMember inner then either (expressionStatement g origin) g.block
    else
      match inner.mark? with
      | some ("\x7d", after) =>
        if continuesOnly after then expressionStatement g origin else g.block
      | _ => g.block
  | none => unexpected

def labeledStatement (g : Productions) (origin : Cursor) : Parser Node := do
  let label ← variableName
  mark ":"
  let body ← g.statement
  node origin .labeledStatement [(.label, .node label), (.body, .node body)]

/-- A statement that starts with a word. -/
def wordStatement (g : Productions) (origin : Cursor) (word : String) (after : Cursor) :
    Parser Node := do
  if !isReserved word && after.nextMark == ":" then labeledStatement g origin
  else
    match ← declaration? g origin with
    | some found => return found
    | none =>
      match word with
      | "if" => ifStatement g origin
      | "for" => forStatement g origin
      | "while" => whileStatement g origin
      | "do" => doStatement g origin
      | "return" => returnStatement g origin
      | "throw" => throwStatement g origin
      | "break" => jumpStatement origin "break" .breakStatement
      | "continue" => jumpStatement origin "continue" .continueStatement
      | "try" => tryStatement g origin
      | "switch" => switchStatement g origin
      | "with" => withStatement g origin
      | "debugger" =>
        keyword "debugger"
        semicolon false
        node origin .debuggerStatement []
      | "import" =>
        if after.nextMark == "(" || after.nextMark == "." then expressionStatement g origin
        else importStatement g origin
      | "export" =>
        if (after.automaticEnd? true).isSome then expressionStatement g origin
        else either (exportStatement g origin) (expressionStatement g origin)
      | _ => expressionStatement g origin

def statement (g : Productions) : Parser Node := do
  let origin ← operandStart
  match origin.word? with
  | some (word, after) => wordStatement g origin word after
  | none =>
    let next := origin.nextMark
    if next == "\x7b" then braceStatement g origin
    else if next == ";" then
      mark ";"
      node origin .emptyStatement []
    else if next == "@" then
      match ← attempt (do
        decorators g
        exportStatement g (← start)) with
      | some _ => rawNode origin
      | none =>
        decorators g
        classTail g
        rawNode origin
    else expressionStatement g origin

end Graft.Grammar
