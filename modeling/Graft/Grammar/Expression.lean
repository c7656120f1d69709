import Graft.Grammar.Class
import Graft.Grammar.Element

/-!
# Expressions

Expressions are read by binding strength.  Functions with arrows are operands like any other, and
a target followed by an assignment operator takes the whole assignment as one operand.
-/

namespace Graft.Grammar

/-- The strength at which the conditional operator and `??` bind. -/
def conditionalStrength : Nat := 1

/-- The strength of shifts, the loosest operators within a side of a relation. -/
def shiftStrength : Nat := 9

/-- The strength of the operand of a unary operator. -/
def unaryStrength : Nat := 13

/-- The strength of a binary operator. -/
def binaryStrength? : String → Option Nat
  | "??" => some 1
  | "||" => some 2
  | "&&" => some 3
  | "|" => some 4
  | "^" => some 5
  | "&" => some 6
  | "==" | "!=" | "===" | "!==" => some 7
  | "<" | ">" | "<=" | ">=" | "in" | "instanceof" => some 8
  | "<<" | ">>" | ">>>" => some 9
  | "+" | "-" => some 10
  | "*" | "/" | "%" => some 11
  | "**" => some 12
  | _ => none

/-- Only exponentiation groups to the right. -/
def rightStrength (operator : String) (strength : Nat) : Nat :=
  if operator == "**" then strength else strength + 1

def isLogical (operator : String) : Bool :=
  operator == "&&" || operator == "||" || operator == "??"

def assignmentMarks : List String :=
  ["=", "+=", "-=", "*=", "/=", "%=", "**=", "<<=", ">>=", ">>>=", "&=", "|=", "^=", "&&=", "||=",
    "??="]

/-- Words that start an operand although they are reserved. -/
def operandWords : List String :=
  ["class", "delete", "false", "function", "import", "new", "null", "super", "this", "true",
    "typeof", "void"]

/-- An operand may start here. -/
def startsOperand (cur : Cursor) : Bool :=
  match cur.word? with
  | some (word, _) => !isReserved word || operandWords.contains word
  | none =>
    match cur.skip.rest with
    | '.' :: c :: _ => c.isDigit
    | c :: _ => c.isDigit || "\"'`([\x7b+-!~/<@#".toList.contains c
    | [] => false

/-- A line end ends the expression here. -/
def endsHere (lineEnds : Bool) (cur : Cursor) : Bool :=
  lineEnds && (cur.automaticEnd? true).isSome

/-- The body of a function that is part of an expression.  Comments up to the end of its line
belong to it. -/
def expressionBlock (g : Productions) : Parser Node := do
  let body ← g.block
  match (← get).automaticEnd? true with
  | some cur =>
    set cur
    return .mk body.kind { body.span with stop := cur.offset } body.slots
  | none => return body

def functionExpression (g : Productions) : Parser Node := do
  let origin ← start
  let async ← hasKeyword "async"
  keyword "function"
  let generator ← hasMark "*"
  let name ← if (← get).nextMark == "(" then pure none else some <$> variableName
  let params ← parameters g
  let body ← expressionBlock g
  node origin .functionExpression (functionSlots name params body async generator)

/-- The body of a function with an arrow.  Braces that read as an object with members hold an
object. -/
def arrowBody (g : Productions) (lineEnds : Bool) : Parser Node := do
  match (← get).mark? with
  | some ("\x7b", inner) =>
    if opensMember inner then
      either (Operand.node <$> g.expression lineEnds) (expressionBlock g)
    else expressionBlock g
  | _ => Operand.node <$> g.expression lineEnds

/-- A function with an arrow, from its parameters on. -/
def arrow (g : Productions) (lineEnds : Bool) (origin : Cursor) (async : Bool) :
    Parser Operand := do
  let params ← if (← get).nextMark == "(" then parameters g else do pure [← variableName]
  mark "=>"
  let body ← arrowBody g lineEnds
  let function ← node origin .arrowFunctionExpression
    [(.params, .list params), (.body, .node body), (.async, .flag async)]
  return ⟨function, origin, .other⟩

/-- Parentheses around expressions, or around the parameters of a function with an arrow. -/
def group (g : Productions) (lineEnds : Bool) : Parser Operand := do
  let origin ← start
  let expressions : Parser Operand := do
    let inner ← g.parenthesized
    if (← get).nextMark == "=>" then unexpected
    return ⟨inner, origin, .group⟩
  eitherReading expressions (arrow g lineEnds origin false)

/-- A bracketed literal, or a pattern that is assigned to. -/
def bracketed (g : Productions) (literal : Parser Node) : Parser Operand := do
  let origin ← start
  let asLiteral : Parser Operand := do return ⟨← literal, origin, .literal⟩
  let pattern ← eitherReading asLiteral do return ⟨← g.pattern, origin, .name⟩
  if pattern.form = .literal || (← get).nextMark == "=" then return pattern
  unexpected

/-- What starts with `async`: a function, a function with an arrow, or the name itself. -/
def asyncOperand (g : Productions) (lineEnds : Bool) : Parser Operand := do
  let origin ← start
  let asName : Parser Operand := do
    let name ← anyName
    return ⟨name, origin, .name⟩
  let after := (origin.word?.map Prod.snd).getD origin
  if endsHere lineEnds after then asName
  else if after.nextWord == "function" then return ⟨← functionExpression g, origin, .other⟩
  else if after.nextMark == "=>" then arrow g lineEnds origin false
  else if after.nextMark == "(" || after.word?.isSome then
    eitherReading (do
      set after
      arrow g lineEnds origin true) asName
  else asName

/-- A word that is an operand by itself or starts one. -/
def wordOperand (g : Productions) (lineEnds : Bool) (word : String) : Parser Operand := do
  let origin ← start
  let rawWord : Parser Operand := do
    let _ ← anyName
    return ⟨← rawNode origin, origin, .other⟩
  let constant (value : Scalar) : Parser Operand := do
    let _ ← anyName
    return ⟨← literal origin value, origin, .other⟩
  match word with
  | "function" => return ⟨← functionExpression g, origin, .other⟩
  | "class" =>
    classTail g
    return ⟨← rawNode origin, origin, .other⟩
  | "new" => g.construct
  | "this" =>
    let _ ← anyName
    return ⟨← node origin .thisExpression [], origin, .other⟩
  | "null" => constant .null
  | "true" => constant (.bool true)
  | "false" => constant (.bool false)
  | "super" => rawWord
  | "import" =>
    keyword "import"
    if (← get).nextMark == "." then
      mark "."
      keyword "meta"
      return ⟨← rawNode origin, origin, .other⟩
    else return ⟨← rawNode origin, origin, .other⟩
  | "async" => asyncOperand g lineEnds
  | _ =>
    let name ← if word == "export" then anyName else variableName
    if (← get).nextMark == "=>" then
      set origin
      arrow g lineEnds origin false
    else return ⟨name, origin, .name⟩

/-- An operand without operators around or behind it. -/
def primary (g : Productions) (lineEnds : Bool) : Parser Operand := do
  let origin ← operandStart
  let other (p : Parser Node) : Parser Operand := do return ⟨← p, origin, .other⟩
  match origin.word? with
  | some (word, _) => wordOperand g lineEnds word
  | none =>
    match origin.rest with
    | '(' :: _ => group g lineEnds
    | '[' :: _ => bracketed g (array g)
    | '\x7b' :: _ => bracketed g (object g)
    | '\x60' :: _ => other do
      template g
      rawNode origin
    | '/' :: _ => other regexLiteral
    | '<' :: _ => other g.element
    | '@' :: _ => other do
      decorators g
      classTail g
      rawNode origin
    | '#' :: _ =>
      let name ← privateName
      if (← get).nextWord == "in" then return ⟨name, origin, .other⟩
      unexpected
    | c :: _ => if c = '"' ∨ c = '\'' then other stringLiteral else other numberLiteral
    | [] => unexpected

/-- The property behind a dot. -/
def propertyName : Parser Node := do
  if (← start).rest.head? == some '#' then privateName else anyName

def memberOf (object : Operand) (property : Node) (computed optional : Bool) : Parser Operand := do
  let member ← node object.origin .memberExpression
    [(.object, .node object.node), (.property, .node property),
      (.computed, .flag computed), (.optional, .flag optional)]
  return ⟨member, object.origin, .member⟩

def callOf (callee : Operand) (args : List Node) (optional : Bool) : Parser Operand := do
  let call ← node callee.origin .callExpression
    [(.callee, .node callee.node), (.arguments, .list args), (.optional, .flag optional)]
  return ⟨call, callee.origin, .other⟩

def subscriptOf (g : Productions) (object : Operand) (optional : Bool) : Parser Operand := do
  mark "["
  let index ← g.expressions false
  mark "]"
  memberOf object index true optional

/-- One step of what may follow an operand: a member, a call, a tagged template or an update.
With `calls` unset, only what belongs to the operand of `new`. -/
def suffix? (g : Productions) (calls lineEnds : Bool) (operand : Operand) :
    Parser (Option Operand) := do
  let cur ← get
  let next := cur.nextMark
  if next == "." then
    if endsHere lineEnds cur then return none
    mark "."
    some <$> memberOf operand (← propertyName) false false
  else if next == "?." then
    mark "?."
    let inner := (← get).nextMark
    if inner == "[" then some <$> subscriptOf g operand true
    else if inner == "(" then some <$> callOf operand (← arguments g) true
    else some <$> memberOf operand (← propertyName) false true
  else if next == "[" then some <$> subscriptOf g operand false
  else if next == "`" then
    template g
    return some ⟨← rawNode operand.origin, operand.origin, .other⟩
  else if !calls then return none
  else if next == "(" then some <$> callOf operand (← arguments g) false
  else if (next == "++" || next == "--") && !endsHere lineEnds cur then
    mark next
    let update ← node operand.origin .updateExpression
      [(.operator, .text next), (.argument, .node operand.node), (.prefixed, .flag false)]
    return some ⟨update, operand.origin, .other⟩
  else return none

/-- Everything that follows an operand. -/
def suffixes (g : Productions) (calls lineEnds : Bool) : Nat → Operand → Parser Operand
  | 0, operand => return operand
  | fuel + 1, operand => do
    match ← suffix? g calls lineEnds operand with
    | some longer => suffixes g calls lineEnds fuel longer
    | none => return operand

def suffixed (g : Productions) (calls lineEnds : Bool) (operand : Operand) : Parser Operand := do
  suffixes g calls lineEnds ((← get).rest.length + 1) operand

/-- `new` with its operand and arguments, or `new.target`. -/
def construct (g : Productions) : Parser Operand := do
  let origin ← start
  keyword "new"
  if (← get).nextMark == "." then
    mark "."
    keyword "target"
    return ⟨← rawNode origin, origin, .other⟩
  let first ← if (← get).nextWord == "new" then g.construct else primary g false
  let callee ← suffixed g false false first
  let args ← if (← get).nextMark == "(" then arguments g else pure []
  let value ← node origin .newExpression [(.callee, .node callee.node), (.arguments, .list args)]
  return ⟨value, origin, .other⟩

/-- The left side of an assignment: a target as it stands, or a literal read again as a
pattern. -/
def assignmentLeft? (g : Productions) (operator : String) (left : Operand) :
    Parser (Option Node) := do
  match left.form with
  | .name | .member | .group => return some left.node
  | .literal =>
    if operator == "=" then
      let stop := (← get).offset
      attempt do
        set left.origin
        let pattern ← g.pattern
        if (← get).offset == stop then return pattern
        unexpected
    else return none
  | .other => return none

/-- An operand together with an assignment to it, if one follows. -/
def assigned (g : Productions) (lineEnds : Bool) (left : Operand) : Parser Operand := do
  match (← get).mark? with
  | some (operator, next) =>
    if assignmentMarks.contains operator then
      match ← assignmentLeft? g operator left with
      | some target =>
        set next
        let right ← g.expression lineEnds
        let assignment ← node left.origin .assignmentExpression
          [(.operator, .text operator), (.left, .node target), (.right, .node right.node)]
        return ⟨assignment, left.origin, .other⟩
      | none => return left
    else return left
  | none => return left

def unary (g : Productions) (lineEnds : Bool) (origin : Cursor) (operator : String) :
    Parser Operand := do
  let argument ← g.operation unaryStrength lineEnds
  let value ← node origin .unaryExpression
    [(.operator, .text operator), (.argument, .node argument.node)]
  return ⟨value, origin, .other⟩

def prefixUpdate (g : Productions) (lineEnds : Bool) (origin : Cursor) (operator : String) :
    Parser Operand := do
  let argument ← g.operation unaryStrength lineEnds
  let value ← node origin .updateExpression
    [(.operator, .text operator), (.argument, .node argument.node), (.prefixed, .flag true)]
  return ⟨value, origin, .other⟩

def awaited (g : Productions) (lineEnds : Bool) (origin : Cursor) : Parser Operand := do
  keyword "await"
  let cur ← get
  if endsHere lineEnds cur || !startsOperand cur then unexpected
  let argument ← g.operation unaryStrength lineEnds
  let value ← node origin .awaitExpression [(.argument, .node argument.node)]
  return ⟨value, origin, .other⟩

def yielded (g : Productions) (lineEnds : Bool) (origin : Cursor) : Parser Operand := do
  keyword "yield"
  let result (argument : Option Node) (delegate : Bool) : Parser Operand := do
    let value ← node origin .yieldExpression
      [(.argument, .ofOption argument), (.delegate, .flag delegate)]
    return ⟨value, origin, .other⟩
  let cur ← get
  if endsHere lineEnds cur then result none false
  else if cur.nextMark == "*" then
    mark "*"
    let argument ← g.expression lineEnds
    result argument.node true
  else if startsOperand cur then
    let argument ← g.expression lineEnds
    result argument.node false
  else result none false

/-- An operand with everything that binds tighter than a binary operator. -/
def operand (g : Productions) (lineEnds : Bool) : Parser Operand := do
  let origin ← operandStart
  let plain : Parser Operand := do
    let first ← primary g lineEnds
    let whole ← suffixed g true lineEnds first
    assigned g lineEnds whole
  match origin.word? with
  | some (word, next) =>
    if word == "typeof" || word == "void" || word == "delete" then
      set next
      unary g lineEnds origin word
    else if word == "await" then either (awaited g lineEnds origin) plain
    else if word == "yield" then yielded g lineEnds origin
    else plain
  | none =>
    match origin.mark? with
    | some (sign, next) =>
      if sign == "!" || sign == "~" || sign == "+" || sign == "-" then
        set next
        unary g lineEnds origin sign
      else if sign == "++" || sign == "--" then
        set next
        prefixUpdate g lineEnds origin sign
      else plain
    | none => plain

/-- The next binary operator, its strength and the place behind it. -/
def binaryOperator? (cur : Cursor) : Option (String × Nat × Cursor) :=
  let found := match cur.mark? with
    | some result => some result
    | none => cur.word?
  match found with
  | some (operator, next) => (binaryStrength? operator).map fun s => (operator, s, next)
  | none => none

/-- Goes on with operators of at least the given strength. -/
def operators (g : Productions) (least : Nat) (lineEnds : Bool) : Nat → Operand → Parser Operand
  | 0, left => return left
  | fuel + 1, left => do
    let cur ← get
    match binaryOperator? cur with
    | some (operator, strength, next) =>
      if strength < least then return left
      set next
      let right ← g.operation (rightStrength operator strength) lineEnds
      let kind := if isLogical operator then Kind.logicalExpression else Kind.binaryExpression
      let value ← node left.origin kind
        [(.operator, .text operator), (.left, .node left.node), (.right, .node right.node)]
      operators g least lineEnds fuel ⟨value, left.origin, .other⟩
    | none =>
      if conditionalStrength < least || cur.nextMark != "?" then return left
      mark "?"
      let consequent ← g.expression false
      mark ":"
      let alternate ← g.operation conditionalStrength lineEnds
      let value ← node left.origin .conditionalExpression
        [(.test, .node left.node), (.consequent, .node consequent.node),
          (.alternate, .node alternate.node)]
      operators g least lineEnds fuel ⟨value, left.origin, .other⟩

def operation (g : Productions) (least : Nat) (lineEnds : Bool) : Parser Operand := do
  let left ← operand g lineEnds
  operators g least lineEnds ((← get).rest.length + 1) left

end Graft.Grammar
