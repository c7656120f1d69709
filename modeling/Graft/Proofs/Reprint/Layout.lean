import Graft.Print.Printer

/-!
# The characters of a layout

A document laid out from some level on, as a list of characters.  The texts of the kinds of nodes
are given in terms of the texts of their parts.
-/

namespace Graft

namespace Doc

/-- The characters of a document whose lines start at least at the given level. -/
def chars (style : Style) (level : Nat) : Doc → List Char
  | [] => []
  | .text s :: rest => s.toList ++ chars style level rest
  | .line depth :: rest =>
    '\n' :: (style.indentationChars (depth + level) ++ chars style level rest)

variable {style : Style} {level : Nat}

@[simp] theorem chars_nil : chars style level [] = [] := rfl

@[simp] theorem chars_append (front back : Doc) :
    chars style level (front ++ back) = chars style level front ++ chars style level back := by
  induction front with
  | nil => rfl
  | cons piece rest ih => cases piece <;> simp [chars, ih]

@[simp] theorem chars_ofText (s : String) : chars style level (ofText s) = s.toList := by
  simp [ofText, chars]

@[simp] theorem chars_newline :
    chars style level newline = '\n' :: style.indentationChars level := by
  simp [newline, chars]

@[simp] theorem chars_nest (doc : Doc) :
    chars style level doc.nest = chars style (level + 1) doc := by
  induction doc with
  | nil => rfl
  | cons piece rest ih =>
      rw [nest] at ih
      cases piece with
      | text s => simp [nest, nestPiece, chars, ih]
      | line depth => simp [nest, nestPiece, chars, ih, Nat.add_comm, Nat.add_left_comm]

@[simp] theorem chars_parenthesized (doc : Doc) :
    chars style level doc.parenthesized = '(' :: (chars style level doc ++ [')']) := by
  simp [parenthesized]

theorem toList_render (style : Style) (doc : Doc) :
    (doc.render style).toList = chars style 0 doc := by
  induction doc with
  | nil => simp [render]
  | cons piece rest ih =>
      rw [render] at ih ⊢
      cases piece with
      | text s => simp [chars, renderPiece, ih]
      | line depth => simp [chars, renderPiece, Style.indentation, ih]

end Doc

@[simp] theorem Node.node_printed (style : Style) (n : Node) : (n.printed style).node = n := by
  cases n
  rfl

/-- The text of a node without parentheses around it. -/
def Node.text (style : Style) (level : Nat) (n : Node) : List Char :=
  (n.printed style).bare.chars style level

/-- The text of a node as an operand of at least some strength. -/
def Node.operandText (style : Style) (level least : Nat) (n : Node) : List Char :=
  ((n.printed style).operand least).chars style level

theorem Node.operandText_eq (style : Style) (level least : Nat) (n : Node) :
    n.operandText style level least =
      if Strength.of n < least then '(' :: (n.text style level ++ [')'])
      else n.text style level := by
  rw [operandText, Printed.operand, node_printed]
  split
  · simp [text]
  · rfl

theorem Node.operandText_sequence (style : Style) (level : Nat) (n : Node) :
    n.operandText style level Strength.sequence = n.text style level := by
  rw [operandText_eq, Strength.sequence, if_neg (Nat.not_lt_zero (Strength.of n))]

/-- Texts separated by a comma and a blank. -/
def joined : List (List Char) → List Char
  | [] => []
  | text :: texts => text ++ texts.flatMap fun text => ',' :: ' ' :: text

theorem Doc.chars_commaList {style : Style} {level : Nat} (docs : List Doc) :
    (Doc.commaList docs).chars style level = joined (docs.map (Doc.chars style level)) := by
  rw [Doc.commaList]
  induction docs with
  | nil => rfl
  | cons doc docs ih =>
      cases docs with
      | nil => simp [Doc.joinWith, joined]
      | cons next docs => simpa [Doc.joinWith, joined] using ih

theorem printedNodes_eq (style : Style) (ns : List Node) :
    printedNodes style ns = ns.map (Node.printed style) := by
  induction ns with
  | nil => rfl
  | cons n ns ih => rw [printedNodes, ih, List.map_cons]

/-- The texts of the items of a list. -/
def itemTexts (style : Style) (level : Nat) (ns : List Node) : List (List Char) :=
  ns.map (Node.operandText style level Strength.assignment)

theorem chars_operands {style : Style} {level : Nat} (ns : List Node) :
    (Doc.commaList ((printedNodes style ns).map fun c => c.operand Strength.assignment)).chars
      style level = joined (itemTexts style level ns) := by
  rw [Doc.chars_commaList, printedNodes_eq, List.map_map, List.map_map]
  rfl

namespace Node

variable {style : Style} {level : Nat} {span : Span}

theorem text_identifier {name : String} :
    (Node.identifier name span).text style level = name.toList :=
  Doc.chars_ofText name

theorem text_string {value : String} :
    (Node.mk .literal span [(.value, .scalar (.str value))]).text style level =
      (Text.Quoted.encode value style.quotes).toList :=
  Doc.chars_ofText _

theorem text_scalar {value : Scalar} (hvalue : ∀ s, value ≠ .str s) :
    (Node.mk .literal span [(.value, .scalar value)]).text style level = value.content.toList := by
  cases value with
  | str s => exact absurd rfl (hvalue s)
  | _ => exact Doc.chars_ofText _

theorem text_this : (Node.mk .thisExpression span []).text style level = "this".toList :=
  Doc.chars_ofText _

theorem text_array {ns : List Node} (hfilled : ∀ n ∈ ns, n.kind ≠ .elision) :
    (Node.mk .arrayExpression span [(.elements, .list ns)]).text style level =
      '[' :: (joined (itemTexts style level ns) ++ [']']) := by
  have hlast : (printedNodes style ns).getLast?.any
      (fun c => decide (c.node.kind = .elision)) = false := by
    rw [printedNodes_eq, List.getLast?_map]
    cases hlast : ns.getLast? with
    | none => rfl
    | some n =>
        have hn := hfilled n (List.mem_of_getLast? hlast)
        simp [hn]
  have hbare : ((Node.mk .arrayExpression span [(.elements, .list ns)]).printed style).bare =
      Doc.ofText "[" ++ Doc.commaList ((printedNodes style ns).map fun c =>
        c.operand Strength.assignment) ++
          Doc.ofText (if (printedNodes style ns).getLast?.any
            (fun c => decide (c.node.kind = .elision)) then ",]" else "]") := rfl
  simp [text, hbare, hlast, chars_operands]

theorem text_spread {n : Node} :
    (Node.mk .spreadElement span [(.argument, .node n)]).text style level =
      "...".toList ++ n.operandText style level Strength.assignment := by
  have hbare : ((Node.mk .spreadElement span [(.argument, .node n)]).printed style).bare =
      Doc.ofText "..." ++ (n.printed style).operand Strength.assignment := rfl
  simp [text, operandText, hbare]

/-- The object of a member: an integer is put in parentheses, since a dot would extend it. -/
def objectText (style : Style) (level : Nat) (object : Node) : List Char :=
  if Parts.isBareInteger object then
    '(' :: (object.operandText style level Strength.call ++ [')'])
  else object.operandText style level Strength.call

theorem chars_object {object : Node} :
    Doc.chars style level (if Parts.isBareInteger object then
      Doc.parenthesized ((object.printed style).operand Strength.call)
        else (object.printed style).operand Strength.call) = object.objectText style level := by
  unfold objectText
  split
  · simp [operandText]
  · rfl

theorem text_member {object : Node} {name : String} {span' : Span} :
    (Node.mk .memberExpression span [(.object, .node object),
      (.property, .node (.identifier name span')), (.computed, .flag false),
        (.optional, .flag false)]).text style level =
      object.objectText style level ++ '.' :: name.toList := by
  have hbare : ((Node.mk .memberExpression span [(.object, .node object),
      (.property, .node (.identifier name span')), (.computed, .flag false),
        (.optional, .flag false)]).printed style).bare =
      (if Parts.isBareInteger object then
        Doc.parenthesized ((object.printed style).operand Strength.call)
          else (object.printed style).operand Strength.call) ++
        (Doc.ofText "." ++ Doc.ofText name) := by
    cases object
    rfl
  rw [text, hbare, Doc.chars_append, chars_object]
  simp

theorem text_element {object index : Node} :
    (Node.mk .memberExpression span [(.object, .node object), (.property, .node index),
      (.computed, .flag true), (.optional, .flag false)]).text style level =
      object.objectText style level ++
        '[' :: (index.operandText style level Strength.sequence ++ [']']) := by
  have hbare : ((Node.mk .memberExpression span [(.object, .node object), (.property, .node index),
      (.computed, .flag true), (.optional, .flag false)]).printed style).bare =
      (if Parts.isBareInteger object then
        Doc.parenthesized ((object.printed style).operand Strength.call)
          else (object.printed style).operand Strength.call) ++
        (Doc.ofText "[" ++ (index.printed style).operand Strength.sequence ++ Doc.ofText "]") := by
    cases object
    rfl
  rw [text, hbare, Doc.chars_append, chars_object]
  simp [operandText]

theorem text_call {callee : Node} {args : List Node} :
    (Node.mk .callExpression span [(.callee, .node callee), (.arguments, .list args),
      (.optional, .flag false)]).text style level =
      callee.operandText style level Strength.call ++
        '(' :: (joined (itemTexts style level args) ++ [')']) := by
  have hbare : ((Node.mk .callExpression span [(.callee, .node callee), (.arguments, .list args),
      (.optional, .flag false)]).printed style).bare =
      (callee.printed style).operand Strength.call ++ Doc.ofText "(" ++
        Doc.commaList ((printedNodes style args).map fun c => c.operand Strength.assignment) ++
          Doc.ofText ")" := rfl
  simp [text, operandText, hbare, chars_operands]

/-- The operand of `new`: a call at the left end of its chain would be taken for its arguments. -/
def calleeText (style : Style) (level : Nat) (callee : Node) : List Char :=
  if (callee.printed style).startsWithCall then
    '(' :: (callee.operandText style level Strength.sequence ++ [')'])
  else callee.operandText style level Strength.construct

theorem text_new {callee : Node} {args : List Node} :
    (Node.mk .newExpression span [(.callee, .node callee),
      (.arguments, .list args)]).text style level =
      "new ".toList ++ (callee.calleeText style level ++
        '(' :: (joined (itemTexts style level args) ++ [')'])) := by
  have hbare : ((Node.mk .newExpression span [(.callee, .node callee),
      (.arguments, .list args)]).printed style).bare =
      Doc.ofText "new " ++ (if (callee.printed style).startsWithCall then
        Doc.parenthesized ((callee.printed style).operand Strength.sequence)
          else (callee.printed style).operand Strength.construct) ++
        Doc.parenthesized (Doc.commaList ((printedNodes style args).map fun c =>
          c.operand Strength.assignment)) := rfl
  have hcallee : Doc.chars style level (if (callee.printed style).startsWithCall then
        Doc.parenthesized ((callee.printed style).operand Strength.sequence)
          else (callee.printed style).operand Strength.construct) =
        callee.calleeText style level := by
    unfold calleeText
    split
    · simp [operandText]
    · rfl
  rw [text, hbare, Doc.chars_append, Doc.chars_append, hcallee]
  simp [chars_operands]

/-- A sign would fuse with the same sign behind it. -/
def fuses (style : Style) (operator : String) (argument : Node) : Bool :=
  (operator == "+" || operator == "-") &&
    ((argument.printed style).operand Strength.unary).startsWithText operator

theorem text_unary {operator : String} {argument : Node} :
    (Node.mk .unaryExpression span [(.operator, .text operator),
      (.argument, .node argument)]).text style level =
      operator.toList ++ ((if operator.toList.all Char.isAlpha then [' '] else []) ++
        ((if fuses style operator argument then [' '] else []) ++
          argument.operandText style level Strength.unary)) := by
  have hbare : ((Node.mk .unaryExpression span [(.operator, .text operator),
      (.argument, .node argument)]).printed style).bare =
      Doc.ofText operator ++ (if operator.toList.all Char.isAlpha then Doc.ofText " " else []) ++
        (if fuses style operator argument then
          Doc.ofText " " ++ (argument.printed style).operand Strength.unary
            else (argument.printed style).operand Strength.unary) := rfl
  rw [text, hbare, Doc.chars_append, Doc.chars_append, Doc.chars_ofText, List.append_assoc]
  congr 1
  congr 1
  · split <;> simp
  · split <;> simp [operandText]

theorem text_update {operator : String} {argument : Node} {prefixed : Bool} :
    (Node.mk .updateExpression span [(.operator, .text operator), (.argument, .node argument),
      (.prefixed, .flag prefixed)]).text style level =
      if prefixed then operator.toList ++ argument.operandText style level Strength.unary
      else argument.operandText style level Strength.postfixed ++ operator.toList := by
  have hbare : ((Node.mk .updateExpression span [(.operator, .text operator),
      (.argument, .node argument), (.prefixed, .flag prefixed)]).printed style).bare =
      if prefixed then Doc.ofText operator ++ (argument.printed style).operand Strength.unary
      else (argument.printed style).operand Strength.postfixed ++ Doc.ofText operator := by
    cases prefixed <;> rfl
  rw [text, hbare]
  split <;> simp [operandText]

/-- The strengths that a binary operator asks of its operands. -/
def leftLeast (operator : String) (left : Node) : Nat :=
  Parts.operandStrength operator left
    (if operator == "**" then Strength.postfixed else Strength.binary operator)

def rightLeast (operator : String) (right : Node) : Nat :=
  Parts.operandStrength operator right
    (if operator == "**" then Strength.binary operator else Strength.binary operator + 1)

theorem text_binary
    {kind : Kind}
    (hkind : kind = .binaryExpression ∨ kind = .logicalExpression)
    {operator : String} {left right : Node} :
    (Node.mk kind span [(.operator, .text operator), (.left, .node left),
      (.right, .node right)]).text style level =
      left.operandText style level (leftLeast operator left) ++
        ' ' :: (operator.toList ++ ' ' ::
          right.operandText style level (rightLeast operator right)) := by
  have hbare : ((Node.mk kind span [(.operator, .text operator), (.left, .node left),
      (.right, .node right)]).printed style).bare =
      (left.printed style).operand (leftLeast operator left) ++
        Doc.ofText (" " ++ operator ++ " ") ++
          (right.printed style).operand (rightLeast operator right) := by
    cases left
    cases right
    rcases hkind with rfl | rfl <;> rfl
  simp [text, operandText, hbare]

theorem text_assignment {operator : String} {left right : Node} :
    (Node.mk .assignmentExpression span [(.operator, .text operator), (.left, .node left),
      (.right, .node right)]).text style level =
      left.operandText style level Strength.call ++
        ' ' :: (operator.toList ++ ' ' :: right.operandText style level Strength.assignment) := by
  have hbare : ((Node.mk .assignmentExpression span [(.operator, .text operator),
      (.left, .node left), (.right, .node right)]).printed style).bare =
      (left.printed style).operand Strength.call ++ Doc.ofText (" " ++ operator ++ " ") ++
        (right.printed style).operand Strength.assignment := rfl
  simp [text, operandText, hbare]

theorem text_conditional {test consequent alternate : Node} :
    (Node.mk .conditionalExpression span [(.test, .node test), (.consequent, .node consequent),
      (.alternate, .node alternate)]).text style level =
      test.operandText style level Strength.logicalOr ++ ' ' :: '?' :: ' ' ::
        (consequent.operandText style level Strength.assignment ++ ' ' :: ':' :: ' ' ::
          alternate.operandText style level Strength.assignment) := by
  have hbare : ((Node.mk .conditionalExpression span [(.test, .node test),
      (.consequent, .node consequent), (.alternate, .node alternate)]).printed style).bare =
      (test.printed style).operand Strength.logicalOr ++ Doc.ofText " ? " ++
        (consequent.printed style).operand Strength.assignment ++ Doc.ofText " : " ++
          (alternate.printed style).operand Strength.assignment := rfl
  simp [text, operandText, hbare]

theorem text_sequence {ns : List Node} :
    (Node.mk .sequenceExpression span [(.expressions, .list ns)]).text style level =
      joined (itemTexts style level ns) :=
  chars_operands ns

end Node
end Graft
