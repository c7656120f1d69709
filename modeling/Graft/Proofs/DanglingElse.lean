import Graft.Proofs.PlacedProgram
import Graft.Proofs.SameStructure
import Graft.Proofs.Yields

/-!
# To which `if` an `else` belongs

An `else` belongs to the last `if` in front of it that has none yet.  A tree in which an `if` with
an `else` holds, right in front of that `else`, an `if` without one is therefore never read: what
the grammar reads as a statement has no such place, and if the statement ends in an `if` without
`else`, no `else` follows it.
-/

namespace Graft

/-- The slots of the statements that stand directly inside a kind of statement. -/
def Kind.nests : Kind → Field → Bool
  | .ifStatement, .consequent | .ifStatement, .alternate | .whileStatement, .body
  | .doWhileStatement, .body | .forStatement, .body | .forInStatement, .body
  | .forOfStatement, .body | .labeledStatement, .body | .blockStatement, .body => true
  | _, _ => false

/-- The slot of the statement that a kind of statement ends with. -/
def Kind.lastField? : Kind → Option Field
  | .ifStatement => some .alternate
  | .whileStatement | .forStatement | .forInStatement | .forOfStatement | .labeledStatement =>
    some .body
  | _ => none

/-- The statement ends in an `if` without `else`. -/
inductive Node.EndsOpen : Node → Prop
  | here {n : Node} (hkind : n.kind = .ifStatement) (hnone : n.child? .alternate = none) :
      EndsOpen n
  | last {n c : Node} {field : Field} (hfield : n.kind.lastField? = some field)
      (hc : n.child? field = some c) (hopen : EndsOpen c) : EndsOpen n

/-- Somewhere among the nested statements, what stands in front of an `else` ends in an `if`
without one. -/
inductive Node.Dangles : Node → Prop
  | here {n c a : Node} (hkind : n.kind = .ifStatement) (hc : n.child? .consequent = some c)
      (ha : n.child? .alternate = some a) (hopen : c.EndsOpen) : Dangles n
  | inside {n c : Node} {step : Step} (hnests : n.kind.nests step.field = true)
      (hc : n.childAt? step = some c) (hdangles : Dangles c) : Dangles n

/-! ## The same structure -/

theorem Node.slot?_of_sameStructure
    {a b : Node}
    (ha : a.fields.Nodup) (hsame : a.sameStructure b = true)
    {field : Field} {slot : Slot}
    (hslot : b.slot? field = some slot) :
    ∃ slot', a.slot? field = some slot' ∧ slot'.sameStructure slot = true := by
  have hfield : field ∈ a.fields := by
    refine (Node.fields_perm_of_sameStructure ha hsame).mem_iff.mpr ?_
    exact List.mem_map.mpr ⟨_, Node.mem_slots_of_slot? hslot, rfl⟩
  obtain ⟨entry, hentry, rfl⟩ := List.mem_map.mp hfield
  obtain ⟨other, hother, hsame'⟩ := (Node.sameStructure_iff.mp hsame).2.2 entry hentry
  rw [hslot] at hother
  cases hother
  exact ⟨entry.2, (Node.slot?_eq_some_iff ha).mpr hentry, hsame'⟩

theorem Slot.child?_of_sameStructure
    {a b : Slot}
    (hsame : a.sameStructure b = true)
    {index : Option Nat} {c : Node}
    (hc : b.child? index = some c) :
    ∃ c', a.child? index = some c' ∧ c'.sameStructure c = true := by
  cases a <;> cases b <;> simp only [Slot.sameStructure, Bool.false_eq_true] at hsame <;>
    cases index <;> simp only [Slot.child?, Option.some.injEq, reduceCtorEq] at hc ⊢
  · subst hc
    exact ⟨_, rfl, hsame⟩
  · rename_i as bs i
    rw [sameSequence_iff] at hsame
    obtain ⟨hi, rfl⟩ := List.getElem?_eq_some_iff.mp hc
    have hi' : i < as.length := by rw [hsame.length_eq]; exact hi
    exact ⟨as[i], List.getElem?_eq_getElem hi', hsame.get hi' hi⟩

theorem Node.childAt?_of_sameStructure
    {a b : Node}
    (ha : a.fields.Nodup) (hsame : a.sameStructure b = true)
    {step : Step} {c : Node}
    (hc : b.childAt? step = some c) :
    ∃ c', a.childAt? step = some c' ∧ c'.sameStructure c = true := by
  obtain ⟨slot, hslot, hchild⟩ := Node.childAt?_eq_some_iff.mp hc
  obtain ⟨slot', hslot', hsame'⟩ := Node.slot?_of_sameStructure ha hsame hslot
  obtain ⟨c', hc', hsame''⟩ := Slot.child?_of_sameStructure hsame' hchild
  exact ⟨c', Node.childAt?_eq_some_iff.mpr ⟨slot', hslot', hc'⟩, hsame''⟩

theorem Node.child?_eq_childAt? (n : Node) (field : Field) :
    n.child? field = n.childAt? ⟨field, none⟩ := by
  unfold Node.child? Node.childAt?
  cases n.slot? field with
  | none => rfl
  | some slot => cases slot <;> rfl

theorem Node.child?_of_sameStructure
    {a b : Node}
    (ha : a.fields.Nodup) (hsame : a.sameStructure b = true)
    {field : Field} {c : Node}
    (hc : b.child? field = some c) :
    ∃ c', a.child? field = some c' ∧ c'.sameStructure c = true := by
  rw [Node.child?_eq_childAt?] at hc ⊢
  exact Node.childAt?_of_sameStructure ha hsame hc

theorem Node.child?_eq_none_of_sameStructure
    {a b : Node}
    (hsame : a.sameStructure b = true)
    {field : Field}
    (hnone : b.child? field = none) :
    a.child? field = none := by
  by_contra hsome
  obtain ⟨c, hc⟩ := Option.ne_none_iff_exists'.mp hsome
  rw [Node.child?_eq_some_iff] at hc
  obtain ⟨other, hother, hsame'⟩ :=
    (Node.sameStructure_iff.mp hsame).2.2 _ (Node.mem_slots_of_slot? hc)
  cases other with
  | node c' =>
      rw [Node.child?_eq_some_iff.mpr hother] at hnone
      cases hnone
  | _ => simp [Slot.sameStructure] at hsame'

theorem Node.kind_eq_of_sameStructure {a b : Node} (hsame : a.sameStructure b = true) :
    a.kind = b.kind :=
  (Node.sameStructure_iff.mp hsame).1

theorem Node.EndsOpen.of_sameStructure
    {a b : Node}
    (hopen : b.EndsOpen) (ha : a.DistinctFields) (hsame : a.sameStructure b = true) :
    a.EndsOpen := by
  induction hopen generalizing a with
  | here hkind hnone =>
      exact .here ((Node.kind_eq_of_sameStructure hsame).trans hkind)
        (Node.child?_eq_none_of_sameStructure hsame hnone)
  | last hfield hc _ ih =>
      obtain ⟨c', hc', hsame'⟩ := Node.child?_of_sameStructure ha.here hsame hc
      have hdistinct : c'.DistinctFields :=
        Node.All.childAt ha ((Node.child?_eq_childAt? a _).symm.trans hc')
      exact .last (by rw [Node.kind_eq_of_sameStructure hsame, hfield]) hc' (ih hdistinct hsame')

theorem Node.Dangles.of_sameStructure
    {a b : Node}
    (hdangles : b.Dangles) (ha : a.DistinctFields) (hsame : a.sameStructure b = true) :
    a.Dangles := by
  induction hdangles generalizing a with
  | here hkind hc halternate hopen =>
      obtain ⟨c', hc', hsame'⟩ := Node.child?_of_sameStructure ha.here hsame hc
      obtain ⟨a', ha', -⟩ := Node.child?_of_sameStructure ha.here hsame halternate
      have hdistinct : c'.DistinctFields :=
        Node.All.childAt ha ((Node.child?_eq_childAt? a _).symm.trans hc')
      exact .here ((Node.kind_eq_of_sameStructure hsame).trans hkind) hc' ha'
        (hopen.of_sameStructure hdistinct hsame')
  | inside hnests hc _ ih =>
      obtain ⟨c', hc', hsame'⟩ := Node.childAt?_of_sameStructure ha.here hsame hc
      exact .inside (by rw [Node.kind_eq_of_sameStructure hsame]; exact hnests) hc'
        (ih (Node.All.childAt ha hc') hsame')

/-- A single child is the only child in its slot. -/
theorem Node.eq_of_childAt?
    {n a b : Node} {field : Field} {index : Option Nat}
    (ha : n.childAt? ⟨field, index⟩ = some a) (hb : n.slot? field = some (.node b)) :
    a = b := by
  obtain ⟨slot, hslot, hchild⟩ := Node.childAt?_eq_some_iff.mp ha
  rw [hb] at hslot
  cases hslot
  cases index <;> cases hchild
  rfl

namespace Grammar

/-! ## Statements and what follows them -/

/-- The statement has been read right: no `else` in it or behind it belongs to an earlier `if`. -/
structure Settled (n : Node) (stop : Cursor) : Prop where
  inside : ¬ n.Dangles
  behind : n.EndsOpen → stop.nextWord ≠ "else"

/-- No statement stands directly inside the kind. -/
def isLone (kind : Kind) : Bool :=
  !([.ifStatement, .whileStatement, .doWhileStatement, .forStatement, .forInStatement,
    .forOfStatement, .labeledStatement, .blockStatement] : List Kind).contains kind

theorem Settled.of_lone {n : Node} (hlone : isLone n.kind = true) (stop : Cursor) :
    Settled n stop where
  inside hdangles := by
    cases hdangles with
    | here hkind =>
        rw [hkind] at hlone
        cases hlone
    | inside hnests =>
        unfold Kind.nests at hnests
        split at hnests
        all_goals first | (rename_i hkind _; rw [hkind] at hlone; cases hlone) | cases hnests
  behind hopen := by
    cases hopen with
    | here hkind =>
        rw [hkind] at hlone
        cases hlone
    | last hfield =>
        unfold Kind.lastField? at hfield
        split at hfield
        all_goals first | (rename_i hkind; rw [hkind] at hlone; cases hlone) | cases hfield

/-- The kinds of statements that end with their body. -/
def bodyLast : List Kind :=
  [.whileStatement, .forStatement, .forInStatement, .forOfStatement, .labeledStatement]

theorem bodyLast_facts :
    ∀ kind ∈ bodyLast, kind ≠ .ifStatement ∧
      kind.lastField? = some .body ∧ ∀ field, kind.nests field = true → field = .body := by
  simp only [bodyLast, List.forall_mem_cons, List.not_mem_nil, false_imp_iff, implies_true,
    and_true]
  and_intros
  all_goals first | decide | (intro field; cases field <;> decide)

theorem Settled.of_body
    {kind : Kind} {span : Span} {slots : List (Field × Slot)} {body : Node} {stop : Cursor}
    (hkind : kind ∈ bodyLast)
    (hbody : slots.lookup .body = some (.node body))
    (hsettled : Settled body stop) :
    Settled (.mk kind span slots) stop := by
  obtain ⟨hif, hlast, hnests⟩ := bodyLast_facts _ hkind
  have hslot : (Node.mk kind span slots).slot? .body = some (.node body) := hbody
  constructor
  · intro hdangles
    cases hdangles with
    | here hkind' => exact hif hkind'
    | @inside _ _ step hstep hc hdangles =>
        obtain ⟨field, index⟩ := step
        obtain rfl : field = .body := hnests field hstep
        obtain rfl := Node.eq_of_childAt? hc hslot
        exact hsettled.inside hdangles
  · intro hopen
    cases hopen with
    | here hkind' => exact absurd hkind' hif
    | last hfield hc hopen =>
        cases hlast.symm.trans hfield
        rw [Node.child?_eq_childAt?] at hc
        obtain rfl := Node.eq_of_childAt? hc hslot
        exact hsettled.behind hopen

theorem Settled.of_if
    {span : Span} {test consequent : Node} {alternate : Option Node} {stop : Cursor}
    (hconsequent : ¬ consequent.Dangles)
    (halternate : ∀ a, alternate = some a → ¬ consequent.EndsOpen ∧ Settled a stop)
    (hnone : alternate = none → stop.nextWord ≠ "else") :
    Settled (.mk .ifStatement span [(.test, .node test), (.consequent, .node consequent),
      (.alternate, .ofOption alternate)]) stop := by
  have hslots : ∀ a, (Node.mk .ifStatement span [(.test, .node test),
      (.consequent, .node consequent), (.alternate, .ofOption alternate)]).child? .alternate =
        some a → alternate = some a := by
    intro a ha
    cases alternate with
    | none => cases ha
    | some b => exact ha
  constructor
  · intro hdangles
    cases hdangles with
    | here _ hc ha hopen =>
        cases hc
        exact (halternate _ (hslots _ ha)).1 hopen
    | @inside _ _ step hstep hc hdangles =>
        obtain ⟨field, index⟩ := step
        have hfield : field = .consequent ∨ field = .alternate := by
          cases field <;> first | exact .inl rfl | exact .inr rfl | cases hstep
        rcases hfield with rfl | rfl
        · obtain rfl := Node.eq_of_childAt? hc rfl
          exact hconsequent hdangles
        · cases alternate with
          | none => cases index <;> cases hc
          | some a =>
              obtain rfl := Node.eq_of_childAt? hc rfl
              exact (halternate _ rfl).2.inside hdangles
  · intro hopen
    cases hopen with
    | here _ hmissing =>
        cases alternate with
        | none => exact hnone rfl
        | some a => cases hmissing
    | last hfield hc hopen =>
        cases hfield
        exact (halternate _ (hslots _ hc)).2.behind hopen

theorem Settled.of_do
    {span : Span} {body test : Node} {stop : Cursor}
    (hbody : ¬ body.Dangles) :
    Settled (.mk .doWhileStatement span [(.body, .node body), (.test, .node test)]) stop := by
  constructor
  · intro hdangles
    cases hdangles with
    | here hkind => cases hkind
    | @inside _ _ step hstep hc hdangles =>
        obtain ⟨field, index⟩ := step
        obtain rfl : field = .body := by cases field <;> first | rfl | cases hstep
        obtain rfl := Node.eq_of_childAt? hc rfl
        exact hbody hdangles
  · intro hopen
    cases hopen with
    | here hkind => cases hkind
    | last hfield => cases hfield

theorem Settled.of_block
    {span : Span} {body : List Node} {stop : Cursor}
    (hbody : ∀ n ∈ body, ¬ n.Dangles) :
    Settled (.mk .blockStatement span [(.body, .list body)]) stop := by
  constructor
  · intro hdangles
    cases hdangles with
    | here hkind => cases hkind
    | @inside _ _ step hstep hc hdangles =>
        obtain ⟨field, index⟩ := step
        obtain rfl : field = .body := by cases field <;> first | rfl | cases hstep
        cases index with
        | none => cases hc
        | some i => exact hbody _ (List.mem_of_getElem? hc) hdangles
  · intro hopen
    cases hopen with
    | here hkind => cases hkind
    | last hfield => cases hfield

/-- Every result that the parser gives at the cursor, with the place behind it, has the
property. -/
def LeavesAt {α : Type} (cur : Cursor) (p : Parser α) (Q : α → Cursor → Prop) : Prop :=
  ∀ a stop, p cur = .ok (a, stop) → Q a stop

/-- The same at every cursor. -/
def Leaves {α : Type} (p : Parser α) (Q : α → Cursor → Prop) : Prop := ∀ cur, LeavesAt cur p Q

theorem LeavesAt.bind
    {α β : Type} {P : α → Cursor → Prop} {Q : β → Cursor → Prop} {cur : Cursor} {p : Parser α}
    {f : α → Parser β}
    (hp : LeavesAt cur p P) (hf : ∀ a stop, P a stop → LeavesAt stop (f a) Q) :
    LeavesAt cur (p >>= f) Q := by
  intro b stop hrun
  obtain ⟨⟨a, middle⟩, ha, hb⟩ := bind_eq_ok_iff.mp hrun
  exact hf a middle (hp a middle ha) b stop hb

theorem LeavesAt.get
    {β : Type} {Q : β → Cursor → Prop} {cur : Cursor} {f : Cursor → Parser β}
    (hf : LeavesAt cur (f cur) Q) :
    LeavesAt cur (get >>= f) Q :=
  hf

theorem LeavesAt.hasKeyword (cur : Cursor) {text : String} (htext : text ≠ "") :
    LeavesAt cur (hasKeyword text) fun found stop =>
      found = true ∧ cur.nextWord = text ∨ found = false ∧ stop = cur ∧ cur.nextWord ≠ text := by
  refine .get ?_
  cases hword : cur.word? with
  | none =>
      have hnext : cur.nextWord = "" := by simp [Cursor.nextWord, hword]
      rintro _ _ ⟨⟩
      exact .inr ⟨rfl, rfl, hnext ▸ htext.symm⟩
  | some found =>
      obtain ⟨word, next⟩ := found
      have hnext : cur.nextWord = word := by simp [Cursor.nextWord, hword]
      by_cases heq : word = text
      · simp only [heq, BEq.rfl, if_true]
        rintro _ _ ⟨⟩
        exact .inl ⟨rfl, hnext.trans heq⟩
      · simp only [beq_iff_eq, heq, if_false]
        rintro _ _ ⟨⟩
        exact .inr ⟨rfl, rfl, fun hsame => heq (hnext.symm.trans hsame)⟩

namespace Leaves

variable {α β : Type} {P : α → Cursor → Prop} {Q : β → Cursor → Prop}

theorem of_yields
    {p : Parser α} {R : α → Prop}
    (hp : Yields p R) (hR : ∀ a stop, R a → P a stop) :
    Leaves p P :=
  fun cur a stop hrun => hR a stop (hp cur (Nat.zero_le _) a stop hrun)

theorem bind
    {p : Parser α} {f : α → Parser β}
    (hp : Leaves p P) (hf : ∀ a stop, P a stop → LeavesAt stop (f a) Q) :
    Leaves (p >>= f) Q :=
  fun cur => (hp cur).bind hf

theorem skip {p : Parser α} {f : α → Parser β} (hf : ∀ a, Leaves (f a) Q) :
    Leaves (p >>= f) Q :=
  bind (P := fun _ _ => True) (fun _ _ _ _ => trivial) fun a stop _ => hf a stop

theorem ite
    {c : Prop} [Decidable c] {p q : Parser α}
    (hp : Leaves p P) (hq : Leaves q P) :
    Leaves (if c then p else q) P := by
  split
  · exact hp
  · exact hq

theorem either {p q : Parser α} (hp : Leaves p P) (hq : Leaves q P) :
    Leaves (Grammar.either p q) P := by
  intro cur a stop hrun
  unfold Grammar.either at hrun
  split at hrun
  next hfirst =>
    cases hrun
    exact hp cur a stop hfirst
  next => exact hq cur a stop hrun

end Leaves

/-- A node is made where its last part ends. -/
theorem LeavesAt.node
    {origin cur : Cursor} {kind : Kind} {slots : List (Field × Slot)} {Q : Node → Cursor → Prop}
    (hnode : ∀ span, Q (.mk kind span slots) cur) :
    LeavesAt cur (node origin kind slots) Q := by
  intro n stop hrun
  cases hrun
  exact hnode _

/-- The parser gives statements without other statements directly inside. -/
abbrev Lone (p : Parser Node) : Prop := Yields p fun n => isLone n.kind = true

theorem Lone.settled {p : Parser Node} (hp : Lone p) : Leaves p Settled :=
  .of_yields hp fun _ stop hn => .of_lone hn stop

theorem lone_node
    {origin : Cursor} {kind : Kind} {slots : List (Field × Slot)}
    (hkind : isLone kind = true) :
    Lone (node origin kind slots) :=
  .skip fun _ => .of_pure hkind

theorem lone_rawNode {origin : Cursor} : Lone (rawNode origin) := .skip fun _ => .of_pure rfl

variable {g : Productions}

/-! ## Statements with no statement directly inside -/

theorem lone_expressionStatement (origin : Cursor) : Lone (expressionStatement g origin) :=
  .skip fun _ => .skip fun _ => lone_node rfl

theorem lone_variableDeclaration (origin : Cursor) (word : String) :
    Lone (variableDeclaration g origin word) :=
  .skip fun _ => .skip fun _ => lone_node rfl

theorem lone_functionDeclaration (origin : Cursor) : Lone (functionDeclaration g origin) :=
  .skip fun _ => .skip fun _ => .skip fun _ => .skip fun _ => .skip fun _ => .skip fun _ =>
    lone_node rfl

theorem lone_declaration? (origin : Cursor) :
    Yields (declaration? g origin) fun found => ∀ n, found = some n → isLone n.kind = true := by
  refine .ite (lone_variableDeclaration origin _).some ?_
  refine .ite ?_ (.ite ?_ (.ite ?_ (.ite ?_ .of_none)))
  · exact (lone_variableDeclaration origin _).some
  · exact (lone_functionDeclaration origin).some
  · exact .skip fun _ => .skip fun _ => lone_rawNode.some
  · exact .attempt (.skip fun _ => .skip fun _ => .skip fun _ => lone_rawNode)

theorem lone_returnStatement (origin : Cursor) : Lone (returnStatement g origin) := by
  refine .skip fun _ => .skip fun ended => ?_
  cases ended with
  | some _ => exact lone_node rfl
  | none => exact .skip fun _ => .skip fun _ => lone_node rfl

theorem lone_jumpStatement
    (origin : Cursor) (word : String)
    {kind : Kind}
    (hkind : isLone kind = true) :
    Lone (jumpStatement origin word kind) := by
  refine .skip fun _ => .skip fun ended => ?_
  cases ended with
  | some _ => exact lone_node hkind
  | none => exact .skip fun _ => .skip fun _ => lone_node hkind

theorem lone_tryStatement (origin : Cursor) : Lone (tryStatement g origin) := by
  have hend : ∀ block handler finalizer, Lone (node origin .tryStatement
      [(.block, .node block), (.handler, .ofOption handler), (.finalizer, .ofOption finalizer)]) :=
    fun _ _ _ => lone_node rfl
  refine .skip fun _ => .skip fun block => .skip fun _ => .ite ?_ ?_
  all_goals
    refine .skip fun handler => .skip fun _ => .ite ?_ ?_
    all_goals exact .skip fun finalizer => hend block handler finalizer

theorem lone_importStatement (origin : Cursor) : Lone (importStatement g origin) := by
  have hend : Lone (do
      semicolon false
      rawNode origin) := .skip fun _ => lone_rawNode
  refine .skip fun _ => .skip fun cur => ?_
  dsimp only
  split
  · exact .skip fun _ => .skip fun _ => .ite (.skip fun _ => hend) hend
  · refine .ite (.skip fun _ => .skip fun _ => .ite (.skip fun _ => ?_) ?_) (.skip fun _ => ?_)
    all_goals exact .skip fun _ => .skip fun _ => .ite (.skip fun _ => hend) hend

theorem lone_exportStatement (origin : Cursor) : Lone (exportStatement g origin) := by
  refine .skip fun _ => .skip fun cur => .ite ?_ (.ite ?_ ?_)
  · refine .skip fun _ => .skip fun _ => .ite (.skip fun _ => ?_) ?_
    all_goals exact .skip fun _ => .skip fun _ => lone_rawNode
  · refine .skip fun _ => .skip fun _ => .ite (.skip fun _ => ?_) ?_
    all_goals exact .skip fun _ => lone_rawNode
  · refine .skip fun isDefault => .skip fun _ => .skip fun found => ?_
    cases found with
    | some _ => exact lone_rawNode
    | none => exact .ite (.skip fun _ => .skip fun _ => lone_rawNode) (.skip fun _ => lone_rawNode)

/-! ## Statements with statements inside -/

variable (hg : Leaves g.statement Settled) (hr : g.Places)

include hg

theorem settled_ifStatement (origin : Cursor) : Leaves (ifStatement g origin) Settled := by
  refine .skip fun _ => .skip fun test => .bind hg fun consequent middle hconsequent => ?_
  refine (LeavesAt.hasKeyword middle (by decide : "else" ≠ "")).bind fun found next hfound => ?_
  rcases hfound with ⟨rfl, hword⟩ | ⟨rfl, rfl, hword⟩
  · refine LeavesAt.bind (P := fun found stop => ∃ a, found = some a ∧ Settled a stop) ?_ ?_
    · rw [← bind_pure_comp]
      refine (hg next).bind fun a stop ha => ?_
      rintro _ _ ⟨⟩
      exact ⟨a, rfl, ha⟩
    · rintro _ stop ⟨a, rfl, ha⟩
      refine .node fun _ => .of_if hconsequent.inside ?_ (by simp)
      rintro _ ⟨⟩
      exact ⟨fun hopen => hconsequent.behind hopen hword, ha⟩
  · exact .node fun _ => .of_if hconsequent.inside (by simp) fun _ => hword

theorem settled_whileStatement (origin : Cursor) : Leaves (whileStatement g origin) Settled :=
  .skip fun _ => .skip fun _ => .bind hg fun _ _ hbody =>
    .node fun _ => .of_body (by decide) rfl hbody

theorem settled_labeledStatement (origin : Cursor) : Leaves (labeledStatement g origin) Settled :=
  .skip fun _ => .skip fun _ => .bind hg fun _ _ hbody =>
    .node fun _ => .of_body (by decide) rfl hbody

theorem yields_statement : Yields g.statement fun n => ¬ n.Dangles :=
  fun cur _ n stop hrun => (hg cur n stop hrun).inside

theorem settled_doStatement (origin : Cursor) : Leaves (doStatement g origin) Settled := by
  have hdo : Yields (doStatement g origin) fun n => ∀ stop, Settled n stop := by
    refine .skip fun _ => .bind (yields_statement hg) fun body hbody => ?_
    refine .skip fun _ => .skip fun test => .skip fun _ => .skip fun _ => .of_pure fun stop => ?_
    exact .of_do hbody
  exact .of_yields hdo fun _ stop hn => hn stop

theorem settled_block : Leaves g.block Settled := by
  have hblock : Yields g.block fun n => ∀ stop, Settled n stop := by
    refine .skip fun origin => .skip fun _ => .bind (.whileMore (yields_statement hg)) ?_
    intro body hbody
    exact .skip fun _ => .skip fun _ => .of_pure fun stop => .of_block hbody
  exact .of_yields hblock fun _ stop hn => hn stop

include hr in
theorem settled_forStatement (origin : Cursor) : Leaves (forStatement g origin) Settled := by
  refine .skip fun _ => .skip fun _ => ?_
  refine .bind (.of_yields hr.valueLoopHead.yields.attempt fun _ _ hhead => hhead) ?_
  intro head stop hhead
  split
  next left kind right =>
    have hkind : kind ∈ bodyLast := by
      obtain ⟨-, hkind, -⟩ := hhead _ rfl
      rcases hkind with rfl | rfl <;> decide
    exact LeavesAt.bind (hg stop) fun body _ hbody => .node fun _ => .of_body hkind rfl hbody
  next =>
    refine (?_ : Leaves _ Settled) stop
    exact .skip fun _ => .bind hg fun body _ hbody => .node fun _ => .of_body (by decide) rfl hbody

theorem settled_braceStatement (origin : Cursor) : Leaves (braceStatement g origin) Settled := by
  unfold braceStatement
  split
  · refine .ite (.either (lone_expressionStatement origin).settled (settled_block hg)) ?_
    split
    · exact .ite (lone_expressionStatement origin).settled (settled_block hg)
    · exact settled_block hg
  · exact Lone.settled .of_unexpected

include hr in
theorem settled_wordStatement (origin : Cursor) (word : String) (after : Cursor) :
    Leaves (wordStatement g origin word after) Settled := by
  refine .ite (settled_labeledStatement hg origin) ?_
  refine .bind (.of_yields (lone_declaration? origin) fun _ _ hfound => hfound) ?_
  intro found stop hfound
  cases found with
  | some n =>
      rintro _ _ ⟨⟩
      exact .of_lone (hfound n rfl) _
  | none =>
      refine (?_ : Leaves _ Settled) stop
      dsimp only
      split
      · exact settled_ifStatement hg origin
      · exact settled_forStatement hg hr origin
      · exact settled_whileStatement hg origin
      · exact settled_doStatement hg origin
      all_goals refine Lone.settled ?_
      · exact lone_returnStatement origin
      · exact .skip fun _ => .skip fun _ => .skip fun _ => lone_node rfl
      · exact lone_jumpStatement origin _ rfl
      · exact lone_jumpStatement origin _ rfl
      · exact lone_tryStatement origin
      · refine .skip fun _ => .skip fun _ => .skip fun _ => ?_
        exact .skip fun _ => .skip fun _ => lone_node rfl
      · exact .skip fun _ => .skip fun _ => .skip fun _ => lone_rawNode
      · exact .skip fun _ => .skip fun _ => lone_node rfl
      · exact .ite (lone_expressionStatement origin) (lone_importStatement origin)
      · exact .ite (lone_expressionStatement origin)
          (.either (lone_exportStatement origin) (lone_expressionStatement origin))
      · exact lone_expressionStatement origin

include hr in
theorem settled_statement : Leaves (statement g) Settled := by
  refine .skip fun origin => ?_
  split
  · exact settled_wordStatement hg hr origin _ _
  · refine .ite (settled_braceStatement hg origin) (Lone.settled (.ite ?_ (.ite ?_ ?_)))
    · exact .skip fun _ => lone_node rfl
    · refine .skip fun found => ?_
      cases found with
      | some _ => exact lone_rawNode
      | none => exact .skip fun _ => .skip fun _ => lone_rawNode
    · exact lone_expressionStatement origin

omit hg

theorem settled_grammar (length : Nat) : Leaves (grammar length).statement Settled := by
  have hdepth : ∀ depth, Leaves (Nat.repeat unrolled depth .none).statement Settled ∧
      (Nat.repeat unrolled depth .none).Places := by
    intro depth
    induction depth with
    | zero => exact ⟨Lone.settled .of_unexpected, Productions.none_places⟩
    | succ depth ih => exact ⟨settled_statement ih.1 ih.2, ih.2.unrolled⟩
  exact (hdepth _).1

end Grammar

open Grammar in
/-- In a program that was read, every `else` belongs to the last `if` in front of it. -/
theorem not_dangles_of_parse
    {source : String} {root : Node}
    (hparse : parse source = .ok root) :
    ∀ n ∈ root.list .body, ¬ n.Dangles := by
  have hprogram : ∀ length, Yields (program (grammar length)) fun root =>
      ∀ n ∈ root.list .body, ¬ n.Dangles := by
    intro length
    have hline : Yields interpreterLine fun head => ∀ n ∈ head, ¬ n.Dangles := by
      refine .skip fun origin => .ite (.skip fun _ => ?_) (.of_pure (by simp))
      refine .bind lone_rawNode fun n hn => .of_pure ?_
      intro m hm
      rw [List.mem_singleton.mp hm]
      exact (Settled.of_lone hn origin).inside
    refine .skip fun cur => .bind hline fun head hhead => ?_
    refine .bind (.whileMore (yields_statement (settled_grammar length))) fun body hbody => ?_
    refine .skip fun _ => .skip fun _ => .skip fun _ => .of_pure fun n hn => ?_
    rcases List.mem_append.mp hn with hn | hn
    · exact hhead n hn
    · exact hbody n hn
  unfold parse at hparse
  dsimp only at hparse
  split at hparse
  next program next hrun =>
    cases hparse
    exact hprogram _ _ (Nat.zero_le _) _ _ hrun
  next => cases hparse

end Graft
