import Graft.Proofs.Shape

/-!
# Trees that were read

The trees that the grammar builds have the fields of their kinds, numbers with the values of their
texts, and statements where statements stand, in lists where lists of them stand.  Where the
grammar reads an expression it gives no statement, with one exception: a construct without a kind
of its own is source text, and source text counts as a statement too.
-/

namespace Graft

/-- The slots for statements hold statements. -/
def Node.StatementsStand (n : Node) : Prop :=
  ∀ entry ∈ n.slots, n.kind.hasStatementSlot entry.1 = true →
    ∀ c ∈ entry.2.children, c.kind.isStatement = true

/-- The slots for lists of statements hold lists. -/
def Node.ListsStand (n : Node) : Prop :=
  ∀ entry ∈ n.slots, n.kind.hasStatementList entry.1 = true → ∃ items, entry.2 = .list items

/-- No statement, unless it is source text. -/
def Node.IsOperand (n : Node) : Prop :=
  n.kind.isStatement = true → ∃ text span, n = .raw text span

/-- What an expression statement holds is an operand. -/
def Node.HoldsOperand (n : Node) : Prop :=
  n.kind = .expressionStatement → ∀ entry ∈ n.slots, ∀ c ∈ entry.2.children, c.IsOperand

structure Node.ReadHere (n : Node) : Prop where
  fields : n.HasKindFields
  numbers : n.NumbersExact Numeral.value?
  statements : n.StatementsStand
  lists : n.ListsStand
  operand : n.HoldsOperand

/-- The shape of a tree that was read. -/
def Node.Read (n : Node) : Prop := n.All Node.ReadHere

theorem Node.Read.wellFormed
    {root : Node}
    (hread : root.Read) (hnames : root.All Node.NamesFit) :
    root.WellFormed Numeral.value? where
  fields := hread.imp fun _ hn => hn.fields
  names := hnames
  numbers := hread.imp fun _ hn => hn.numbers

theorem Node.Read.respan {n : Node} (hn : n.Read) (span : Span) :
    (Node.mk n.kind span n.slots).Read := by
  obtain ⟨kind, _, slots⟩ := n
  rw [Node.Read, Node.all_iff] at hn ⊢
  exact ⟨⟨hn.1.fields, hn.1.numbers, hn.1.statements, hn.1.lists, hn.1.operand⟩, hn.2⟩

/-! ## Roles -/

/-- What a tree is read as. -/
inductive ReadRole where
  | anything
  | operand
  | statement

def Node.ReadAs : ReadRole → Node → Prop
  | .anything, n => n.Read
  | .operand, n => n.Read ∧ n.IsOperand
  | .statement, n => n.Read ∧ n.kind.isStatement = true

/-- The kind is one of the role. -/
def Kind.fits (kind : Kind) : ReadRole → Bool
  | .anything => true
  | .operand => !kind.isStatement
  | .statement => kind.isStatement

/-- The slot takes trees of the role, one of them or a list. -/
def Kind.admits (kind : Kind) (field : Field) (listed : Bool) : ReadRole → Bool
  | .anything => !kind.hasStatementSlot field && kind != .expressionStatement
  | .operand => !kind.hasStatementSlot field
  | .statement => (listed || !kind.hasStatementList field) && kind != .expressionStatement

/-- A slot that was read as a part of a node. -/
def Slot.ReadIn (kind : Kind) (field : Field) : Slot → Prop
  | .node n => ∃ role, kind.admits field false role = true ∧ n.ReadAs role
  | .list ns => ∃ role, kind.admits field true role = true ∧ ∀ n ∈ ns, n.ReadAs role
  | .absent => kind.hasStatementList field = false
  | .scalar s => kind.hasStatementList field = false ∧ s.Exact Numeral.value?

theorem Node.ReadAs.read {role : ReadRole} {n : Node} (hn : n.ReadAs role) : n.Read := by
  cases role with
  | anything => exact hn
  | operand => exact hn.1
  | statement => exact hn.1

theorem Node.Read.readAs
    {role : ReadRole} {n : Node}
    (hn : n.Read) (hrole : n.kind.fits role = true) :
    n.ReadAs role := by
  cases role with
  | anything => exact hn
  | operand =>
      refine ⟨hn, fun hstatement => ?_⟩
      rw [Kind.fits, hstatement] at hrole
      contradiction
  | statement => exact ⟨hn, hrole⟩

theorem Kind.not_hasStatementList
    {kind : Kind} {field : Field} {role : ReadRole}
    (hrole : kind.admits field false role = true) :
    kind.hasStatementList field = false := by
  cases role <;> simp_all [Kind.admits, Kind.hasStatementSlot]

section

variable {kind : Kind} {field : Field} {slot : Slot} (hslot : slot.ReadIn kind field)

include hslot

theorem Slot.ReadIn.child {c : Node} (hc : c ∈ slot.children) :
    ∃ listed role, kind.admits field listed role = true ∧ c.ReadAs role := by
  cases slot with
  | node n =>
      obtain ⟨role, hrole, hn⟩ := hslot
      rw [List.mem_singleton.mp hc]
      exact ⟨false, role, hrole, hn⟩
  | list ns =>
      obtain ⟨role, hrole, hns⟩ := hslot
      exact ⟨true, role, hrole, hns c hc⟩
  | absent => simp [Slot.children] at hc
  | scalar s => simp [Slot.children] at hc

theorem Slot.ReadIn.isList (hlist : kind.hasStatementList field = true) :
    ∃ items, slot = .list items := by
  have hnot : kind.hasStatementList field ≠ false := by
    rw [hlist]
    decide
  cases slot with
  | node n =>
      obtain ⟨role, hrole, -⟩ := hslot
      exact absurd (Kind.not_hasStatementList hrole) hnot
  | list items => exact ⟨items, rfl⟩
  | absent => exact absurd hslot hnot
  | scalar s => exact absurd hslot.1 hnot

end

/-- A node is as read when it has the fields of its kind and its slots are as read. -/
theorem Node.read_mk
    {kind : Kind} {span : Span} {slots : List (Field × Slot)}
    (hfields : slots.map Prod.fst = kind.fields)
    (hslots : ∀ entry ∈ slots, entry.2.ReadIn kind entry.1) :
    (Node.mk kind span slots).Read := by
  refine Node.all_iff.mpr ⟨⟨.of_eq hfields, ?_, ?_, ?_, ?_⟩, ?_⟩
  · rintro ⟨field, slot⟩ hentry
    have hslot := hslots _ hentry
    cases slot with
    | scalar s => exact hslot.2
    | _ => trivial
  · intro entry hentry hstatement c hc
    obtain ⟨listed, role, hrole, hread⟩ := (hslots _ hentry).child hc
    cases role with
    | statement => exact hread.2
    | anything | operand => simp_all [Kind.admits, Node.kind_mk]
  · intro entry hentry hlist
    exact (hslots _ hentry).isList hlist
  · intro hkind entry hentry c hc
    obtain ⟨listed, role, hrole, hread⟩ := (hslots _ hentry).child hc
    cases role with
    | operand => exact hread.2
    | anything | statement => simp_all [Kind.admits, Node.kind_mk]
  · intro entry hentry c hc
    obtain ⟨-, role, -, hread⟩ := (hslots _ hentry).child hc
    exact hread.read

theorem readAs_raw (role : ReadRole) (text : String) (span : Span) :
    (Node.raw text span).ReadAs role := by
  have hread : (Node.raw text span).Read :=
    Node.read_mk rfl (List.forall_mem_singleton.mpr ⟨rfl, trivial⟩)
  cases role with
  | anything => exact hread
  | operand => exact ⟨hread, fun _ => ⟨text, span, rfl⟩⟩
  | statement => exact ⟨hread, rfl⟩

end Graft
