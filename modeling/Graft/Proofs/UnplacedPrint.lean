import Graft.Print.Printer
import Graft.Proofs.Unplaced

/-!
# Printing without places

A tree prints the same with its places and without them.  Printing works on a node whose children
have been printed, so the places are forgotten there too, and each form in which a node prints is
shown not to look at them.
-/

namespace Graft

theorem Strength.of_unplaced (n : Node) : Strength.of n.unplaced = Strength.of n := by
  simp only [Strength.of, Node.kind_unplaced, Node.text?_unplaced, Node.flag_unplaced]

/-! ## Printed children -/

def Printed.unplaced (c : Printed) : Printed := { c with node := c.node.unplaced }

namespace Printed

variable (c : Printed)

@[simp] theorem node_unplaced : c.unplaced.node = c.node.unplaced := rfl
@[simp] theorem bare_unplaced : c.unplaced.bare = c.bare := rfl
@[simp] theorem statement_unplaced : c.unplaced.statement = c.statement := rfl
@[simp] theorem block_unplaced : c.unplaced.block = c.block := rfl
@[simp] theorem methodTail_unplaced : c.unplaced.methodTail = c.methodTail := rfl
@[simp] theorem declared_unplaced : c.unplaced.declared = c.declared := rfl
@[simp] theorem loopHead_unplaced : c.unplaced.loopHead = c.loopHead := rfl
@[simp] theorem handler_unplaced : c.unplaced.handler = c.handler := rfl
@[simp] theorem switchCase_unplaced : c.unplaced.switchCase = c.switchCase := rfl
@[simp] theorem startsWithCall_unplaced : c.unplaced.startsWithCall = c.startsWithCall := rfl

@[simp] theorem operand_unplaced (least : Nat) : c.unplaced.operand least = c.operand least := by
  simp only [operand, node_unplaced, bare_unplaced, Strength.of_unplaced]

end Printed

def PrintedSlot.unplaced : PrintedSlot → PrintedSlot
  | node c => .node c.unplaced
  | list cs => .list (cs.map Printed.unplaced)
  | leaf => .leaf

namespace Parts

def unplaced (p : Parts) : Parts where
  style := p.style
  node := p.node.unplaced
  slots := p.slots.map fun entry => (entry.1, entry.2.unplaced)

variable (p : Parts)

@[simp] theorem style_unplaced : p.unplaced.style = p.style := rfl
@[simp] theorem node_unplaced : p.unplaced.node = p.node.unplaced := rfl
@[simp] theorem kind_unplaced : p.unplaced.kind = p.kind := p.node.kind_unplaced

theorem lookup_unplaced (field : Field) :
    p.unplaced.slots.lookup field = (p.slots.lookup field).map PrintedSlot.unplaced := by
  rw [unplaced]
  induction p.slots with
  | nil => rfl
  | cons entry rest ih =>
      rw [List.map_cons, List.lookup_cons, List.lookup_cons, ih]
      split <;> rfl

@[simp] theorem child?_unplaced (field : Field) :
    p.unplaced.child? field = (p.child? field).map Printed.unplaced := by
  rw [child?, lookup_unplaced, child?]
  rcases p.slots.lookup field with _ | slot
  · rfl
  · cases slot <;> rfl

@[simp] theorem list_unplaced (field : Field) :
    p.unplaced.list field = (p.list field).map Printed.unplaced := by
  rw [list, lookup_unplaced, list]
  rcases p.slots.lookup field with _ | slot
  · rfl
  · cases slot <;> rfl

@[simp] theorem part_unplaced (field : Field) (form : Printed → Doc) :
    p.unplaced.part field form = p.part field fun c => form c.unplaced := by
  rw [part, child?_unplaced, part]
  cases p.child? field <;> rfl

@[simp] theorem operand_unplaced (field : Field) (least : Nat) :
    p.unplaced.operand field least = p.operand field least := by
  simp only [operand, part_unplaced, Printed.operand_unplaced]

@[simp] theorem operandAfter_unplaced (text : String) (field : Field) (least : Nat) :
    p.unplaced.operandAfter text field least = p.operandAfter text field least := by
  simp only [operandAfter, part_unplaced, Printed.operand_unplaced]

@[simp] theorem blockAfter_unplaced (text : String) (field : Field) :
    p.unplaced.blockAfter text field = p.blockAfter text field := by
  simp only [blockAfter, part_unplaced, Printed.block_unplaced]

@[simp] theorem operands_unplaced (field : Field) :
    p.unplaced.operands field = p.operands field := by
  simp only [operands, list_unplaced, List.map_map, Function.comp_def, Printed.operand_unplaced]

@[simp] theorem text_unplaced (field : Field) (missing : String) :
    p.unplaced.text field missing = p.text field missing := by
  simp only [text, node_unplaced, Node.text?_unplaced]

@[simp] theorem lines_unplaced (field : Field) : p.unplaced.lines field = p.lines field := by
  simp only [lines, list_unplaced, List.flatMap_map, Printed.statement_unplaced]

/-! ## Statements -/

@[simp] theorem block_unplaced : p.unplaced.block = p.block := by
  simp only [block, lines_unplaced]

@[simp] theorem substatement_unplaced (c : Printed) :
    substatement c.unplaced = substatement c := by
  simp only [substatement, Printed.node_unplaced, Node.kind_unplaced, Printed.block_unplaced,
    Printed.statement_unplaced]

@[simp] theorem methodTail_unplaced : p.unplaced.methodTail = p.methodTail := by
  simp only [methodTail, params, operands_unplaced, part_unplaced, Printed.block_unplaced]

@[simp] theorem function_unplaced (isExpression : Bool) :
    p.unplaced.function isExpression = p.function isExpression := by
  simp only [function, child?_unplaced, style_unplaced, node_unplaced, Node.flag_unplaced,
    methodTail_unplaced]
  cases p.child? .id <;> simp

@[simp] theorem declaration_unplaced : p.unplaced.declaration = p.declaration := by
  simp [declaration, Function.comp_def]

@[simp] theorem declarator_unplaced : p.unplaced.declarator = p.declarator := by
  simp only [declarator, operand_unplaced, operandAfter_unplaced]

@[simp] theorem ifStatement_unplaced : p.unplaced.ifStatement = p.ifStatement := by
  simp only [ifStatement, child?_unplaced, operand_unplaced, part_unplaced,
    substatement_unplaced, Option.any_map, Printed.node_unplaced,
    Node.kind_unplaced]
  cases p.child? .alternate <;> simp

@[simp] theorem switchCase_unplaced : p.unplaced.switchCase = p.switchCase := by
  simp only [switchCase, child?_unplaced, lines_unplaced]
  cases p.child? .test <;> simp

@[simp] theorem handler_unplaced : p.unplaced.handler = p.handler := by
  simp [handler]

theorem ownStatement?_unplaced : p.unplaced.ownStatement? = p.ownStatement? := by
  simp [ownStatement?, expressionStatement, forStatement, valueLoop, loopBody, doWhileStatement,
    jump, tryStatement, switchStatement, raw, Option.any_map, List.flatMap_map]

/-! ## Expressions -/

@[simp] theorem literal_unplaced : p.unplaced.literal = p.literal := by
  simp [literal]

@[simp] theorem array_unplaced : p.unplaced.array = p.array := by
  simp [array, Option.any_map]

@[simp] theorem object_unplaced : p.unplaced.object = p.object := by
  simp [object, Function.comp_def]

@[simp] theorem propertyKey_unplaced : p.unplaced.propertyKey = p.propertyKey := by
  simp [propertyKey]

@[simp] theorem property_unplaced : p.unplaced.property = p.property := by
  simp only [property, child?_unplaced, text_unplaced, propertyKey_unplaced, operand_unplaced,
    node_unplaced, Node.flag_unplaced]
  cases p.child? .value <;> cases p.child? .key <;> simp

@[simp] theorem arrow_unplaced : p.unplaced.arrow = p.arrow := by
  simp only [arrow, list_unplaced, child?_unplaced, params, operands_unplaced, node_unplaced,
    Node.flag_unplaced]
  cases p.child? .body <;> rcases p.list .params with _ | ⟨single, _ | ⟨next, rest⟩⟩ <;> simp

@[simp] theorem isBareInteger_unplaced (n : Node) : isBareInteger n.unplaced = isBareInteger n := by
  simp only [isBareInteger, Node.kind_unplaced, Node.scalar?_unplaced]

theorem operandStrength_unplaced (operator : String) (n : Node) (least : Nat) :
    operandStrength operator n.unplaced least = operandStrength operator n least := by
  simp only [operandStrength, Node.kind_unplaced, Node.text?_unplaced]

@[simp] theorem binary_unplaced : p.unplaced.binary = p.binary := by
  simp [binary, Strength.of_unplaced, operandStrength_unplaced]

theorem bare_unplaced : p.unplaced.bare = p.bare := by
  simp [bare, member, call, construct, unary, update, assignment, conditional, yielded,
    ownStatement?_unplaced]

theorem operandDoc_unplaced (least : Nat) : p.unplaced.operandDoc least = p.operandDoc least := by
  simp only [operandDoc, node_unplaced, Strength.of_unplaced, bare_unplaced]

theorem statement_unplaced : p.unplaced.statement = p.statement := by
  simp only [statement, ownStatement?_unplaced, kind_unplaced, operandDoc_unplaced, bare_unplaced]

theorem startsWithCall_unplaced : p.unplaced.startsWithCall = p.startsWithCall := by
  simp only [startsWithCall, kind_unplaced, child?_unplaced]
  cases p.child? .object <;> rfl

theorem toPrinted_unplaced : p.unplaced.toPrinted = p.toPrinted.unplaced := by
  simp only [toPrinted, Printed.unplaced, node_unplaced, bare_unplaced, statement_unplaced,
    block_unplaced, methodTail_unplaced, declared, loopHead, kind_unplaced, declarator_unplaced,
    declaration_unplaced, operandDoc_unplaced, handler_unplaced, switchCase_unplaced,
    startsWithCall_unplaced]

end Parts

/-! ## Trees -/

mutual

theorem Node.printed_unplaced (style : Style) :
    (n : Node) →
      n.unplaced.printed style = (n.printed style).unplaced
  | .mk kind span slots => by
    have hparts := Parts.toPrinted_unplaced ⟨style, .mk kind span slots, printedSlots style slots⟩
    rw [Node.printed, ← hparts, Node.unplaced, Node.printed, printedSlots_unplaced]
    rfl
termination_by structural n => n

theorem Slot.printed_unplaced (style : Style) :
    (slot : Slot) →
      slot.unplaced.printed style = (slot.printed style).unplaced
  | .node n => by
    rw [Slot.unplaced, Slot.printed, Slot.printed, n.printed_unplaced]
    rfl
  | .list ns => by
    rw [Slot.unplaced, Slot.printed, Slot.printed, printedNodes_unplaced]
    rfl
  | .absent => rfl
  | .scalar _ => rfl
termination_by structural slot => slot

theorem printedSlots_unplaced (style : Style) :
    (slots : List (Field × Slot)) →
      printedSlots style (unplacedSlots slots) =
        (printedSlots style slots).map fun entry => (entry.1, entry.2.unplaced)
  | [] => rfl
  | (field, slot) :: rest => by
    rw [unplacedSlots, printedSlots, printedSlots, slot.printed_unplaced,
      printedSlots_unplaced style rest, List.map_cons]
termination_by structural slots => slots

theorem printedNodes_unplaced (style : Style) :
    (ns : List Node) →
      printedNodes style (unplacedNodes ns) = (printedNodes style ns).map Printed.unplaced
  | [] => rfl
  | n :: rest => by
    rw [unplacedNodes, printedNodes, printedNodes, n.printed_unplaced,
      printedNodes_unplaced style rest, List.map_cons]
termination_by structural ns => ns

end

theorem Node.print_unplaced (n : Node) (style : Style) :
    n.unplaced.print style = n.print style := by
  have hlayout : n.unplaced.layout style = n.layout style := by
    simp only [layout, kind_unplaced, list_unplaced, ← unplacedNodes_eq_map,
      printedNodes_unplaced, List.map_map, Function.comp_def, n.printed_unplaced,
      Printed.statement_unplaced, Printed.operand_unplaced]
  rw [print, hlayout, print]

end Graft
