import Graft.Proofs.Progress
import Graft.Proofs.Read
import Graft.Proofs.Subtree

/-!
# Trees in textual order

The children of a node that was read follow each other in the source, between the start and the
end of the node.  Members of objects are the exception.  A plain key may also be the value, and
the function of a method spans the whole member, its key included.

The second half of the module says that the productions that all others use read nodes in this
order, each with the shape of a tree that was read in its role.
-/

namespace Graft

/-- The children of a node, slot by slot. -/
def Node.children (n : Node) : List Node := n.slots.flatMap fun entry => entry.2.children

/-- The nodes follow each other between two offsets, and none of them is empty. -/
def InRow : Nat → List Node → Nat → Prop
  | lo, [], hi => lo ≤ hi
  | lo, n :: ns, hi => lo ≤ n.span.start ∧ n.span.start < n.span.stop ∧ InRow n.span.stop ns hi

/-- How the children of a node are placed.  Outside of objects they stand in a row. -/
inductive Node.PlacedHere : Node → Prop where
  | row {n : Node} (hkind : n.kind ≠ .property)
      (hrow : InRow n.span.start n.children n.span.stop) : PlacedHere n
  | named {span : Span} {key value : Node} {accessor : String} {shorthand method : Bool}
      (hleaf : key.children = []) (hkey : InRow span.start [key] span.stop)
      (hvalue : InRow span.start [value] span.stop) :
      PlacedHere (.mk .property span
        (Grammar.propertySlots key value accessor false shorthand method))
  | computed {span : Span} {key value : Node} (hrow : InRow span.start [key, value] span.stop) :
      PlacedHere (.mk .property span (Grammar.propertySlots key value "init" true false false))
  | method {span : Span} {key value : Node} {accessor : String} (hspan : value.span = span)
      (hkey : span.start < key.span.start)
      (hrow : InRow span.start (key :: value.children) span.stop) :
      PlacedHere (.mk .property span
        (Grammar.propertySlots key value accessor true false (accessor == "init")))

/-- Every node of the tree has its children in their places. -/
def Node.Placed (root : Node) : Prop := root.All Node.PlacedHere

theorem InRow.le {lo hi : Nat} {ns : List Node} (hrow : InRow lo ns hi) : lo ≤ hi := by
  induction ns generalizing lo with
  | nil => exact hrow
  | cons n ns ih =>
      obtain ⟨hlo, hn, hrest⟩ := hrow
      have hstop := ih hrest
      omega

theorem InRow.weaken
    {lo lo' hi hi' : Nat} {ns : List Node}
    (hrow : InRow lo ns hi) (hlo : lo' ≤ lo) (hhi : hi ≤ hi') :
    InRow lo' ns hi' := by
  induction ns generalizing lo lo' with
  | nil => exact Nat.le_trans hlo (Nat.le_trans hrow hhi)
  | cons n ns ih =>
      obtain ⟨hstart, hn, hrest⟩ := hrow
      exact ⟨Nat.le_trans hlo hstart, hn, ih hrest (Nat.le_refl _)⟩

theorem InRow.mono_left
    {lo lo' hi : Nat} {ns : List Node}
    (hrow : InRow lo ns hi) (hlo : lo' ≤ lo) :
    InRow lo' ns hi :=
  hrow.weaken hlo (Nat.le_refl hi)

theorem InRow.mono_right
    {lo hi hi' : Nat} {ns : List Node}
    (hrow : InRow lo ns hi) (hhi : hi ≤ hi') :
    InRow lo ns hi' :=
  hrow.weaken (Nat.le_refl lo) hhi

theorem InRow.append
    {lo mid hi : Nat} {as bs : List Node}
    (has : InRow lo as mid) (hbs : InRow mid bs hi) :
    InRow lo (as ++ bs) hi := by
  induction as generalizing lo with
  | nil => exact hbs.mono_left has
  | cons a as ih =>
      obtain ⟨hstart, ha, hrest⟩ := has
      exact ⟨hstart, ha, ih hrest⟩

theorem InRow.sublist
    {lo hi : Nat} {as bs : List Node}
    (hrow : InRow lo bs hi) (hsublist : as.Sublist bs) :
    InRow lo as hi := by
  induction hsublist generalizing lo with
  | slnil => exact hrow
  | cons b _ ih =>
      obtain ⟨hstart, hb, hrest⟩ := hrow
      exact ih (hrest.mono_left (by omega))
  | cons_cons a _ ih =>
      obtain ⟨hstart, ha, hrest⟩ := hrow
      exact ⟨hstart, ha, ih hrest⟩

theorem InRow.mem
    {lo hi : Nat} {ns : List Node}
    (hrow : InRow lo ns hi)
    {n : Node}
    (hn : n ∈ ns) :
    lo ≤ n.span.start ∧ n.span.start < n.span.stop ∧ n.span.stop ≤ hi := by
  induction ns generalizing lo with
  | nil => simp at hn
  | cons first rest ih =>
      obtain ⟨hstart, hfirst, hrest⟩ := hrow
      rcases List.mem_cons.mp hn with rfl | hn
      · exact ⟨hstart, hfirst, hrest.le⟩
      · have hlater := ih hrest hn
        omega

theorem InRow.pairwise {lo hi : Nat} {ns : List Node} (hrow : InRow lo ns hi) :
    ns.Pairwise fun a b => a.span.stop ≤ b.span.start := by
  induction ns generalizing lo with
  | nil => exact .nil
  | cons n ns ih =>
      obtain ⟨-, -, hrest⟩ := hrow
      exact .cons (fun b hb => (hrest.mem hb).1) (ih hrest)

theorem Node.mem_children
    {n c : Node} {entry : Field × Slot}
    (hentry : entry ∈ n.slots) (hc : c ∈ entry.2.children) :
    c ∈ n.children :=
  List.mem_flatMap.mpr ⟨entry, hentry, hc⟩

theorem Node.mem_children_of_childAt?
    {n c : Node} {step : Step}
    (hstep : n.childAt? step = some c) :
    c ∈ n.children := by
  obtain ⟨slot, hslot, hc⟩ := Node.childAt?_eq_some_iff.mp hstep
  exact Node.mem_children (Node.mem_slots_of_slot? hslot) (Slot.mem_children_of_child? hc)

/-- No child is empty or reaches out of its parent. -/
theorem Node.PlacedHere.within {n c : Node} (hn : n.PlacedHere) (hc : c ∈ n.children) :
    n.span.start ≤ c.span.start ∧ c.span.start < c.span.stop ∧ c.span.stop ≤ n.span.stop := by
  cases hn with
  | row hkind hrow => exact hrow.mem hc
  | named hleaf hkey hvalue =>
      rcases List.mem_cons.mp hc with rfl | hc
      · exact hkey.mem (by simp)
      · rw [List.mem_singleton.mp hc]
        exact hvalue.mem (by simp)
  | computed hrow => exact hrow.mem hc
  | method hspan hkey hrow =>
      have hfirst := hrow.mem (List.mem_cons_self ..)
      rcases List.mem_cons.mp hc with rfl | hc
      · exact hfirst
      · rw [List.mem_singleton.mp hc, hspan, Node.span_mk]
        omega

/-! ## Reading in textual order -/

/-- The nodes were read in their role, one behind the other between two offsets. -/
structure Stand (role : ReadRole) (lo : Nat) (ns : List Node) (hi : Nat) : Prop where
  row : InRow lo ns hi
  placed : ∀ n ∈ ns, n.Placed
  read : ∀ n ∈ ns, n.ReadAs role

namespace Stand

variable {role : ReadRole} {lo lo' mid hi hi' : Nat} {as bs ns : List Node} {n : Node}

theorem of_nil (hle : lo ≤ hi) : Stand role lo [] hi := ⟨hle, by simp, by simp⟩

theorem le (hns : Stand role lo ns hi) : lo ≤ hi := hns.row.le

theorem lt (hns : Stand role lo (n :: ns) hi) : lo < hi := by
  have hn := hns.row.mem (List.mem_cons_self ..)
  omega

theorem weaken (hns : Stand role lo ns hi) (hlo : lo' ≤ lo) (hhi : hi ≤ hi') :
    Stand role lo' ns hi' :=
  ⟨hns.row.weaken hlo hhi, hns.placed, hns.read⟩

theorem mono_left (hns : Stand role lo ns hi) (hlo : lo' ≤ lo) : Stand role lo' ns hi :=
  hns.weaken hlo (Nat.le_refl hi)

theorem mono_right (hns : Stand role lo ns hi) (hhi : hi ≤ hi') : Stand role lo ns hi' :=
  hns.weaken (Nat.le_refl lo) hhi

theorem append (has : Stand role lo as mid) (hbs : Stand role mid bs hi) :
    Stand role lo (as ++ bs) hi := by
  refine ⟨has.row.append hbs.row, ?_, ?_⟩
  · exact List.forall_mem_append.mpr ⟨has.placed, hbs.placed⟩
  · exact List.forall_mem_append.mpr ⟨has.read, hbs.read⟩

theorem sublist (hbs : Stand role lo bs hi) (hsublist : as.Sublist bs) : Stand role lo as hi :=
  ⟨hbs.row.sublist hsublist, fun n hn => hbs.placed n (hsublist.subset hn),
    fun n hn => hbs.read n (hsublist.subset hn)⟩

theorem anything (hns : Stand role lo ns hi) : Stand .anything lo ns hi :=
  ⟨hns.row, hns.placed, fun n hn => (hns.read n hn).read⟩

theorem of_single
    (hrow : InRow lo [n] hi) (hplaced : n.Placed) (hread : n.ReadAs role) :
    Stand role lo [n] hi :=
  ⟨hrow, by simpa using hplaced, by simpa using hread⟩

end Stand

/-- The slots of a node of the kind hold nodes that were read one behind the other. -/
structure Laid (kind : Kind) (lo : Nat) (slots : List (Field × Slot)) (hi : Nat) : Prop where
  row : InRow lo (slots.flatMap fun entry => entry.2.children) hi
  placed : ∀ n ∈ slots.flatMap (fun entry => entry.2.children), n.Placed
  read : ∀ entry ∈ slots, entry.2.ReadIn kind entry.1

namespace Laid

variable {kind : Kind} {role : ReadRole} {lo lo' mid hi : Nat} {field : Field}
  {slots rest : List (Field × Slot)}

theorem done (hle : lo ≤ hi) : Laid kind lo [] hi := ⟨hle, by simp, by simp⟩

theorem nil : Laid kind lo [] lo := done (Nat.le_refl lo)

theorem le (hlaid : Laid kind lo slots hi) : lo ≤ hi := hlaid.row.le

theorem mono_left (hlaid : Laid kind lo slots hi) (hlo : lo' ≤ lo) : Laid kind lo' slots hi :=
  ⟨hlaid.row.mono_left hlo, hlaid.placed, hlaid.read⟩

theorem append (hslots : Laid kind lo slots mid) (hrest : Laid kind mid rest hi) :
    Laid kind lo (slots ++ rest) hi := by
  refine ⟨?_, ?_, List.forall_mem_append.mpr ⟨hslots.read, hrest.read⟩⟩
  · rw [List.flatMap_append]
    exact hslots.row.append hrest.row
  · rw [List.flatMap_append]
    exact List.forall_mem_append.mpr ⟨hslots.placed, hrest.placed⟩

theorem cons
    {slot : Slot}
    (hslot : slot.ReadIn kind field)
    (hchildren : Stand role lo slot.children mid)
    (hrest : Laid kind mid rest hi) :
    Laid kind lo ((field, slot) :: rest) hi :=
  ⟨hchildren.row.append hrest.row, List.forall_mem_append.mpr ⟨hchildren.placed, hrest.placed⟩,
    List.forall_mem_cons.mpr ⟨hslot, hrest.read⟩⟩

theorem node
    {n : Node}
    (hrole : kind.admits field false role = true)
    (hn : Stand role lo [n] mid)
    (hrest : Laid kind mid rest hi) :
    Laid kind lo ((field, .node n) :: rest) hi :=
  cons ⟨role, hrole, hn.read n (by simp)⟩ hn hrest

theorem list
    {ns : List Node}
    (hrole : kind.admits field true role = true)
    (hns : Stand role lo ns mid)
    (hrest : Laid kind mid rest hi) :
    Laid kind lo ((field, .list ns) :: rest) hi :=
  cons ⟨role, hrole, hns.read⟩ hns hrest

theorem option
    {n : Option Node}
    (hrole : kind.admits field false role = true)
    (hn : Stand role lo n.toList mid)
    (hrest : Laid kind mid rest hi) :
    Laid kind lo ((field, .ofOption n) :: rest) hi := by
  cases n with
  | none => exact cons (Kind.not_hasStatementList hrole) hn hrest
  | some n => exact node hrole hn hrest

theorem absent (hlist : kind.hasStatementList field = false) (hrest : Laid kind lo rest hi) :
    Laid kind lo ((field, .absent) :: rest) hi :=
  ⟨hrest.row, hrest.placed, List.forall_mem_cons.mpr ⟨hlist, hrest.read⟩⟩

theorem scalar
    {s : Scalar}
    (hslot : (Slot.scalar s).ReadIn kind field) (hrest : Laid kind lo rest hi) :
    Laid kind lo ((field, .scalar s) :: rest) hi :=
  ⟨hrest.row, hrest.placed, List.forall_mem_cons.mpr ⟨hslot, hrest.read⟩⟩

theorem text
    {t : String}
    (hlist : kind.hasStatementList field = false) (hrest : Laid kind lo rest hi) :
    Laid kind lo ((field, .text t) :: rest) hi :=
  scalar ⟨hlist, trivial⟩ hrest

theorem flag
    {b : Bool}
    (hlist : kind.hasStatementList field = false) (hrest : Laid kind lo rest hi) :
    Laid kind lo ((field, .flag b) :: rest) hi :=
  scalar ⟨hlist, trivial⟩ hrest

end Laid

theorem Node.Placed.of_slots
    {kind : Kind} {span : Span} {slots : List (Field × Slot)}
    (hhere : (Node.mk kind span slots).PlacedHere)
    (hslots : ∀ n ∈ slots.flatMap fun entry => entry.2.children, n.Placed) :
    (Node.mk kind span slots).Placed :=
  Node.all_iff.mpr ⟨hhere, fun entry hentry c hc =>
    hslots c (List.mem_flatMap.mpr ⟨entry, hentry, hc⟩)⟩

/-- A kind whose nodes are read in the role, with a row of children in the fields. -/
structure Kind.Holds (kind : Kind) (role : ReadRole) (slots : List (Field × Slot)) : Prop where
  row : kind ≠ .property
  role : kind.fits role = true
  fields : slots.map Prod.fst = kind.fields

/-- A node around slots that were read one behind the other. -/
theorem Laid.stand
    {role : ReadRole} {lo hi : Nat} {kind : Kind} {span : Span} {slots : List (Field × Slot)}
    (hlaid : Laid kind span.start slots span.stop)
    (hkind : kind.Holds role slots)
    (hlo : lo ≤ span.start)
    (hspan : span.start < span.stop)
    (hhi : span.stop ≤ hi) :
    Stand role lo [.mk kind span slots] hi :=
  .of_single ⟨hlo, hspan, hhi⟩ (.of_slots (.row hkind.row hlaid.row) hlaid.placed)
    ((Node.read_mk hkind.fields hlaid.read).readAs hkind.role)

/-- A statement that is given a later end. -/
theorem Stand.extend
    {lo mid stop hi : Nat} {n : Node}
    (hn : Stand .statement lo [n] mid) (hstop : mid ≤ stop) (hhi : stop ≤ hi) :
    Stand .statement lo [.mk n.kind { n.span with stop := stop } n.slots] hi := by
  have hread := hn.read n (by simp)
  have hkind : n.kind ≠ .property := by
    intro hkind
    rw [Node.ReadAs, hkind] at hread
    exact Bool.noConfusion hread.2
  have hplaced := Node.all_iff.mp (hn.placed n (by simp))
  obtain ⟨hstart, hspan, hend⟩ := hn.row
  have hlater : n.span.stop ≤ stop := Nat.le_trans hend hstop
  refine .of_single ⟨hstart, Nat.lt_of_lt_of_le hspan hlater, hhi⟩
    (Node.all_iff.mpr ⟨.row hkind ?_, hplaced.2⟩) ⟨hread.1.respan _, hread.2⟩
  cases hplaced.1 with
  | row _ hrow => exact hrow.mono_right hlater
  | named | computed | method => exact absurd rfl hkind

namespace Grammar

/-- An operand stands behind its origin. -/
structure Operand.Stands (lo : Nat) (o : Operand) (hi : Nat) : Prop where
  origin : lo ≤ o.origin.offset
  stand : Stand .operand o.origin.offset [o.node] hi

theorem Operand.Stands.le {lo hi : Nat} {o : Operand} (ho : o.Stands lo hi) : lo ≤ hi :=
  Nat.le_trans ho.origin ho.stand.le

theorem Operand.Stands.mono_left
    {lo lo' hi : Nat} {o : Operand}
    (ho : o.Stands lo hi) (hlo : lo' ≤ lo) :
    o.Stands lo' hi :=
  ⟨Nat.le_trans hlo ho.origin, ho.stand⟩

theorem Operand.Stands.mono_right
    {lo hi hi' : Nat} {o : Operand}
    (ho : o.Stands lo hi) (hhi : hi ≤ hi') :
    o.Stands lo hi' :=
  ⟨ho.origin, ho.stand.mono_right hhi⟩

theorem Operand.Stands.node {lo hi : Nat} {o : Operand} (ho : o.Stands lo hi) :
    Stand .operand lo [o.node] hi :=
  ho.stand.mono_left ho.origin

namespace From

variable {role : ReadRole} {lo : Nat} {origin : Cursor}

/-- A node whose children are known to be in their places. -/
theorem placedNode
    {least : Nat} {kind : Kind} {slots : List (Field × Slot)}
    (horigin : least ≤ origin.offset)
    (hlt : origin.offset < lo)
    (hhere : ∀ span : Span, span.start = origin.offset → lo ≤ span.stop →
      (Node.mk kind span slots).PlacedHere)
    (hslots : ∀ n ∈ slots.flatMap fun entry => entry.2.children, n.Placed)
    (hread : ∀ span, (Node.mk kind span slots).ReadAs role) :
    From lo (Grammar.node origin kind slots) fun n => Stand role least [n] := by
  intro cur hcur n next hrun
  cases hrun
  exact .of_single ⟨horigin, Nat.lt_of_lt_of_le hlt hcur, Nat.le_refl _⟩
    (.of_slots (hhere _ rfl hcur) hslots) (hread _)

/-- A node whose slots make up its text. -/
theorem nodeOf
    {least : Nat} {kind : Kind} {slots : List (Field × Slot)}
    (horigin : least ≤ origin.offset)
    (hkind : kind.Holds role slots)
    (hlt : origin.offset < lo)
    (hlaid : Laid kind origin.offset slots lo) :
    From lo (Grammar.node origin kind slots) fun n => Stand role least [n] := by
  refine placedNode horigin hlt (fun span hstart hstop => .row hkind.row ?_) hlaid.placed
    fun _ => (Node.read_mk hkind.fields hlaid.read).readAs hkind.role
  rw [Node.span_mk, hstart]
  exact hlaid.row.mono_right hstop

/-- A node whose slots stand behind its first token. -/
theorem node
    {least : Nat} {kind : Kind} {slots : List (Field × Slot)}
    (horigin : least ≤ origin.offset)
    (hkind : kind.Holds role slots)
    (hlaid : Laid kind (origin.offset + 1) slots lo) :
    From lo (Grammar.node origin kind slots) fun n => Stand role least [n] :=
  nodeOf horigin hkind hlaid.le (hlaid.mono_left (Nat.le_succ _))

theorem rawNode
    {least : Nat}
    (horigin : least ≤ origin.offset) (hlt : origin.offset < lo) :
    From lo (Grammar.rawNode origin) fun n => Stand role least [n] := by
  intro cur hcur n next hrun
  cases hrun
  have hspan : origin.offset < cur.offset := Nat.lt_of_lt_of_le hlt hcur
  exact .of_single ⟨horigin, hspan, Nat.le_refl _⟩
    (.of_slots (.row nofun (Nat.le_of_lt hspan)) nofun) (readAs_raw role _ _)

/-- An operand around a node that stands behind its origin. -/
theorem operand
    {least : Nat} {p : Parser Node} {form : Form}
    (hleast : least ≤ origin.offset) (hp : From lo p fun n => Stand .operand origin.offset [n]) :
    From lo (do return (⟨← p, origin, form⟩ : Operand)) (Operand.Stands least) :=
  bind hp fun _ _ hn => of_pure fun _ hhi => ⟨hleast, hn.mono_right hhi⟩

theorem nodesOf
    {α : Type} {more : Cursor → Bool} {p : Parser α} {f : α → Node}
    (hp : ∀ lo, From lo p fun a => Stand .operand lo [f a]) :
    From lo (Grammar.whileMore more p) fun as => Stand .operand lo (as.map f) :=
  whileMore (I := fun lo as => Stand .operand lo (as.map f)) (fun _ _ hle => .of_nil hle)
    fun lo => (hp lo).imp fun _ _ ha _ _ has => ha.append has

theorem nodes
    {more : Cursor → Bool} {p : Parser Node}
    (hp : ∀ lo, From lo p fun n => Stand role lo [n]) :
    From lo (Grammar.whileMore more p) (Stand role lo) :=
  whileMore (I := Stand role) (fun _ _ hle => .of_nil hle)
    fun lo => (hp lo).imp fun _ _ hn _ _ hns => hn.append hns

theorem ahead
    {α : Type} {more : Cursor → Bool} {p : Parser α}
    (hp : ∀ lo, From lo p fun _ hi => lo ≤ hi) :
    From lo (Grammar.whileMore more p) fun _ hi => lo ≤ hi :=
  whileMore (I := fun lo _ hi => lo ≤ hi) (fun _ _ hle => hle)
    fun lo => (hp lo).imp fun _ _ ha _ _ has => Nat.le_trans ha has

end From

/-! ## Names and literals -/

/-- A node without children. -/
structure Leaf (lo : Nat) (n : Node) (hi : Nat) : Prop where
  stand : Stand .operand lo [n] hi
  leaf : n.children = []

theorem leaf_mk
    {lo hi : Nat} {kind : Kind} {span : Span} {field : Field} {s : Scalar}
    (hslot : (Slot.scalar s).ReadIn kind field)
    (hkind : kind.Holds .operand [(field, .scalar s)])
    (hlo : lo ≤ span.start)
    (hspan : span.start < span.stop)
    (hhi : span.stop ≤ hi) :
    Leaf lo (.mk kind span [(field, .scalar s)]) hi :=
  ⟨Laid.stand (.scalar hslot (.done (Nat.le_of_lt hspan))) hkind hlo hspan hhi, rfl⟩

theorem leaf_identifier
    {lo hi : Nat} {name : String} {span : Span}
    (hlo : lo ≤ span.start) (hspan : span.start < span.stop) (hhi : span.stop ≤ hi) :
    Leaf lo (.identifier name span) hi :=
  leaf_mk ⟨rfl, trivial⟩ ⟨nofun, rfl, rfl⟩ hlo hspan hhi

namespace From

variable {lo : Nat} {origin : Cursor}

theorem anyName : From lo Grammar.anyName (Leaf lo) := by
  refine start fun origin horigin => past (solidLexeme solid_nameLength?) fun name => ?_
  exact get fun cur hcur => of_pure fun hi hhi => leaf_identifier horigin hcur hhi

theorem variableName : From lo Grammar.variableName (Leaf lo) := by
  refine get fun cur hcur => ?_
  dsimp only
  split
  · exact bind (P := fun _ _ => False) of_unexpected fun _ _ hfalse => hfalse.elim
  · exact anyName.mono hcur

theorem privateName : From lo Grammar.privateName (Leaf lo) := by
  refine start fun origin horigin => ?_
  split
  · refine set ?_
    have hmark := origin.offset_le_advance 1
    refine past (solidLexeme solid_nameLength?) fun name => get fun cur hcur => ?_
    have hspan : origin.offset < cur.offset := by omega
    exact of_pure fun hi hhi => leaf_identifier horigin hspan hhi
  · exact of_unexpected

theorem literal
    {value : Scalar}
    (hvalue : value.Exact Numeral.value?) (hle : lo ≤ origin.offset) :
    From (origin.offset + 1) (Grammar.literal origin value) (Leaf lo) :=
  get fun _ hcur => of_pure fun _ hhi =>
    leaf_mk ⟨rfl, hvalue⟩ ⟨nofun, rfl, rfl⟩ hle hcur hhi

theorem numberLiteral : From lo Grammar.numberLiteral (Leaf lo) :=
  start fun _ horigin => past (solidLexeme solid_numberLength?) fun _ =>
    literal ⟨rfl, fun _ hx => Numeral.not_isNaN_of_value? hx⟩ horigin

theorem stringLiteral : From lo Grammar.stringLiteral (Leaf lo) :=
  start fun _ horigin => past (solidLexeme solid_stringLength?) fun _ => literal trivial horigin

theorem regexLiteral : From lo Grammar.regexLiteral (Leaf lo) :=
  start fun _ horigin => past (solidLexeme solid_regexLength?) fun _ => literal trivial horigin

end From

/-! ## Productions -/

/-- The productions read nodes in their roles and in textual order, behind the place where they
start. -/
structure Productions.Places (g : Productions) : Prop where
  operation : ∀ lo least lineEnds, From lo (g.operation least lineEnds) (Operand.Stands lo)
  construct : ∀ lo, From lo g.construct (Operand.Stands lo)
  pattern : ∀ lo, From lo g.pattern fun n => Stand .operand lo [n]
  element : ∀ lo, From lo g.element fun n => Stand .operand lo [n]
  statement : ∀ lo, From lo g.statement fun n => Stand .statement lo [n]

theorem Productions.none_places : Productions.none.Places :=
  ⟨fun _ _ _ => .of_unexpected, fun _ => .of_unexpected, fun _ => .of_unexpected,
    fun _ => .of_unexpected, fun _ => .of_unexpected⟩

namespace Productions.Places

variable {g : Productions} (hg : g.Places) {lo : Nat}
include hg

theorem expression (lineEnds : Bool) : From lo (g.expression lineEnds) (Operand.Stands lo) :=
  hg.operation lo 0 lineEnds

theorem expressions (lineEnds : Bool) :
    From lo (g.expressions lineEnds) fun n => Stand .operand lo [n] := by
  refine .bind (hg.expression lineEnds) fun first mid hfirst => ?_
  refine .bind (.nodesOf (f := Operand.node) ?_) fun more stop hmore => ?_
  · exact fun lo => .past (.mark ",") fun _ => (hg.expression lineEnds).imp fun _ _ ho =>
      ho.node.mono_left (Nat.le_succ lo)
  · split
    · exact .of_pure fun hi hhi => hfirst.node.mono_right (Nat.le_trans hmore.le hhi)
    · have hall := hfirst.stand.append hmore
      exact .nodeOf hfirst.origin ⟨nofun, rfl, rfl⟩ hall.lt (.list rfl hall .nil)

theorem parenthesized : From lo g.parenthesized fun n => Stand .operand lo [n] := by
  refine .past (.mark "(") fun _ => .bind (hg.expressions false) fun inner mid hinner => ?_
  exact .past (.mark ")") fun _ => .of_pure fun hi hhi =>
    hinner.weaken (Nat.le_succ lo) (by omega)

theorem block : From lo g.block fun n => Stand .statement lo [n] := by
  refine .start fun origin horigin => .past (.mark "\x7b") fun _ => ?_
  refine .bind (.nodes hg.statement) fun body mid hbody => .past (.mark "\x7d") fun _ => ?_
  exact .node horigin ⟨nofun, rfl, rfl⟩ (.list rfl hbody (.done (Nat.le_succ mid)))

end Productions.Places

end Grammar

end Graft
