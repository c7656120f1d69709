import Graft.Edit.Replacement
import Graft.Number.Numeral
import Graft.Proofs.SameStructure

/-!
# The shape of a tree that was read

Reading gives every node the fields of its kind, and each number the value of its text.  Nothing
in the types asks for this, and an edit may also put a node where only a name may stand, so the
results that need it say so.
-/

namespace Graft

/-- The fields of a node of each kind, in the order of reading. -/
def Kind.fields : Kind → List Field
  | program => [.body]
  | expressionStatement => [.expression]
  | blockStatement => [.body]
  | emptyStatement | debuggerStatement | thisExpression | elision => []
  | variableDeclaration => [.kind, .declarations]
  | variableDeclarator => [.id, .init]
  | functionDeclaration | functionExpression => [.id, .params, .body, .async, .generator]
  | returnStatement | throwStatement | spreadElement | restElement | awaitExpression =>
    [.argument]
  | ifStatement | conditionalExpression => [.test, .consequent, .alternate]
  | forStatement => [.init, .test, .update, .body]
  | forInStatement | forOfStatement => [.left, .right, .body]
  | whileStatement => [.test, .body]
  | doWhileStatement => [.body, .test]
  | breakStatement | continueStatement => [.label]
  | tryStatement => [.block, .handler, .finalizer]
  | catchClause => [.param, .body]
  | switchStatement => [.discriminant, .cases]
  | switchCase => [.test, .consequent]
  | labeledStatement => [.label, .body]
  | identifier => [.name]
  | literal => [.value]
  | arrayExpression => [.elements]
  | objectExpression => [.properties]
  | property => [.key, .value, .kind, .computed, .shorthand, .method]
  | arrowFunctionExpression => [.params, .body, .async]
  | assignmentPattern => [.left, .right]
  | memberExpression => [.object, .property, .computed, .optional]
  | callExpression => [.callee, .arguments, .optional]
  | newExpression => [.callee, .arguments]
  | unaryExpression => [.operator, .argument]
  | updateExpression => [.operator, .argument, .prefixed]
  | binaryExpression | logicalExpression | assignmentExpression => [.operator, .left, .right]
  | sequenceExpression => [.expressions]
  | yieldExpression => [.argument, .delegate]
  | raw => [.text]

theorem Kind.nodup_fields (kind : Kind) : kind.fields.Nodup := by
  cases kind <;> decide

/-- The node has the fields of its kind, in some order. -/
def Node.HasKindFields (n : Node) : Prop := n.fields.Perm n.kind.fields

/-- The slots for names and bindings hold only what they may hold. -/
def Node.NamesFit (n : Node) : Prop :=
  ∀ entry ∈ n.slots, ∀ c ∈ entry.2.children,
    fitsSlot n.kind (n.flag .computed) entry.1 c.kind = true

instance (n : Node) : Decidable n.HasKindFields :=
  inferInstanceAs (Decidable (n.fields.Perm n.kind.fields))

instance (n : Node) : Decidable n.NamesFit :=
  inferInstanceAs (Decidable (∀ entry ∈ n.slots, ∀ c ∈ entry.2.children, _ = true))

/-- A tree of the shape that reading gives, in which every name stands where a name may stand. -/
structure Node.WellFormed (valueOf : String → Option Binary64) (root : Node) : Prop where
  fields : root.All Node.HasKindFields
  names : root.All Node.NamesFit
  numbers : root.All (Node.NumbersExact valueOf)

theorem Node.HasKindFields.nodup {n : Node} (hfields : n.HasKindFields) : n.fields.Nodup :=
  hfields.nodup_iff.mpr n.kind.nodup_fields

theorem Node.HasKindFields.perm
    {a b : Node}
    (ha : a.HasKindFields) (hb : b.HasKindFields) (hkind : a.kind = b.kind) :
    a.fields.Perm b.fields := by
  have hb' : b.fields.Perm a.kind.fields := by
    rw [hkind]
    exact hb
  exact ha.trans hb'.symm

/-- A node of a kind with one field has one slot. -/
theorem Node.HasKindFields.slots_eq_singleton
    {n : Node} {field : Field} {slot : Slot}
    (hfields : n.HasKindFields)
    (hkind : n.kind.fields = [field])
    (hslot : n.slot? field = some slot) :
    n.slots = [(field, slot)] := by
  have hone : n.fields = [field] := by
    rw [← List.perm_singleton, ← hkind]
    exact hfields
  obtain ⟨entry, hentry, -⟩ := List.map_eq_singleton_iff.mp hone
  have hmem := Node.mem_slots_of_slot? hslot
  rw [hentry] at hmem ⊢
  rw [List.mem_singleton.mp hmem]

theorem Node.distinctFields_of_hasKindFields {root : Node} (hroot : root.All Node.HasKindFields) :
    root.DistinctFields :=
  hroot.imp fun _ hfields => hfields.nodup

theorem Node.exact_of_hasKindFields
    {valueOf : String → Option Binary64} {root : Node}
    (hfields : root.All Node.HasKindFields) (hnumbers : root.All (Node.NumbersExact valueOf)) :
    root.Exact valueOf :=
  (hfields.and hnumbers).imp fun _ hn => ⟨hn.1.nodup, hn.2⟩

theorem Node.WellFormed.exact
    {valueOf : String → Option Binary64} {root : Node}
    (hroot : root.WellFormed valueOf) :
    root.Exact valueOf :=
  Node.exact_of_hasKindFields hroot.fields hroot.numbers

/-! ## Numbers -/

theorem Binary64.not_isNaN_ofQuotient (num den : Nat) :
    (Binary64.ofQuotient num den).isNaN = false := by
  unfold Binary64.ofQuotient
  split
  · decide
  · dsimp only
    generalize hbits : min _ Binary64.infinityBits = bits
    have hle : bits ≤ Binary64.infinityBits := by
      rw [← hbits]
      exact Nat.min_le_right _ _
    simp only [Binary64.infinityBits] at hle
    have hsmall : bits.toUInt64.toNat = bits := by
      simp only [Nat.toUInt64_eq, UInt64.toNat_ofNat']
      omega
    simp only [Binary64.isNaN, Binary64.magnitude, hsmall, Binary64.infinityBits,
      decide_eq_false_iff_not, Nat.not_lt]
    exact Nat.le_trans (Nat.mod_le _ _) hle

theorem Binary64.not_isNaN_ofDecimal (digits : Nat) (exponent : Int) :
    (Binary64.ofDecimal digits exponent).isNaN = false := by
  unfold Binary64.ofDecimal
  dsimp only
  split_ifs
  · decide
  · decide
  · decide
  · exact Binary64.not_isNaN_ofQuotient _ _
  · exact Binary64.not_isNaN_ofQuotient _ _

theorem Numeral.exists_ofDecimal_of_decimal?
    {text : List Char} {x : Binary64}
    (hx : Numeral.decimal? text = some x) :
    ∃ digits exponent, x = Binary64.ofDecimal digits exponent := by
  unfold Numeral.decimal? at hx
  dsimp only at hx
  split at hx
  next => simp at hx
  next =>
    obtain ⟨digits, -, hx⟩ := Option.bind_eq_some_iff.mp hx
    split at hx
    next =>
      cases hx
      exact ⟨_, _, rfl⟩
    next =>
      obtain ⟨power, -, hx⟩ := Option.bind_eq_some_iff.mp hx
      cases hx
      exact ⟨_, _, rfl⟩

theorem Numeral.not_isNaN_of_value?
    {raw : String} {x : Binary64}
    (hx : Numeral.value? raw = some x) :
    x.isNaN = false := by
  unfold Numeral.value? at hx
  dsimp only at hx
  split_ifs at hx
  split at hx
  next radix rest _ =>
    obtain ⟨n, -, hn⟩ := Option.bind_eq_some_iff.mp hx
    split_ifs at hn
    cases hn
    exact Binary64.not_isNaN_ofQuotient _ _
  next =>
    obtain ⟨digits, exponent, rfl⟩ := Numeral.exists_ofDecimal_of_decimal? hx
    exact Binary64.not_isNaN_ofDecimal digits exponent

end Graft
