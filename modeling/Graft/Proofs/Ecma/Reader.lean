import Graft.Proofs.Ecma.Grammar

/-!
# A reader of expressions

The tokens of an expression are read from left to right by a reader that looks one token ahead.  It
takes more than the grammar derives: it compares strengths and nothing else.  What it makes of some
tokens in front of a rest is stated by what it goes on to do with that rest.
-/

namespace Graft.Ecma

open Grammar

/-! ## Large amounts of fuel -/

/-- The answer for all large amounts of fuel. -/
def Settles {α : Type} (f : Nat → Option α) (x : α) : Prop :=
  ∃ bound, ∀ fuel, bound ≤ fuel → f fuel = some x

namespace Settles

variable {α β : Type} {f : Nat → Option α} {x y : α}

theorem unique (hx : Settles f x) (hy : Settles f y) : x = y := by
  obtain ⟨bound, hx⟩ := hx
  obtain ⟨bound', hy⟩ := hy
  have hmax := hx (max bound bound') (Nat.le_max_left _ _)
  rw [hy _ (Nat.le_max_right _ _)] at hmax
  exact (Option.some.inj hmax).symm

theorem of_succ (hf : ∀ fuel, f (fuel + 1) = some x) : Settles f x := by
  refine ⟨1, fun fuel hfuel => ?_⟩
  obtain ⟨fuel, rfl⟩ : ∃ k, fuel = k + 1 := ⟨fuel - 1, by omega⟩
  exact hf fuel

/-- One unit of fuel is spent on a first part and what is made of it. -/
theorem step
    {first : Nat → Option β} {g : Nat → β → Option α} {y : β}
    (hfirst : Settles first y)
    (hnext : Settles (fun fuel => g fuel y) x)
    (hf : ∀ fuel, f (fuel + 1) = (first fuel).bind (g fuel)) :
    Settles f x := by
  obtain ⟨bound, hfirst⟩ := hfirst
  obtain ⟨bound', hnext⟩ := hnext
  refine ⟨max bound bound' + 1, fun fuel hfuel => ?_⟩
  obtain ⟨fuel, rfl⟩ : ∃ k, fuel = k + 1 := ⟨fuel - 1, by omega⟩
  rw [hf, hfirst fuel (by omega), Option.bind_some]
  exact hnext fuel (by omega)

theorem forward
    {next : Nat → Option α}
    (hnext : Settles next x) (hf : ∀ fuel, f (fuel + 1) = next fuel) :
    Settles f x := by
  obtain ⟨bound, hnext⟩ := hnext
  refine ⟨bound + 1, fun fuel hfuel => ?_⟩
  obtain ⟨fuel, rfl⟩ : ∃ k, fuel = k + 1 := ⟨fuel - 1, by omega⟩
  rw [hf, hnext fuel (by omega)]

theorem bind
    {g : Nat → α → Option β} {y : β}
    (hf : Settles f x) (hnext : Settles (fun fuel => g fuel x) y) :
    Settles (fun fuel => (f fuel).bind (g fuel)) y := by
  obtain ⟨bound, hf⟩ := hf
  obtain ⟨bound', hnext⟩ := hnext
  refine ⟨max bound bound', fun fuel hfuel => ?_⟩
  show (f fuel).bind (g fuel) = some y
  rw [hf fuel (by omega), Option.bind_some]
  exact hnext fuel (by omega)

theorem const (x : α) : Settles (fun _ => some x) x := ⟨0, fun _ _ => rfl⟩

end Settles

/-! ## The reader -/

/-- What stands between an operand and the rest of an operation. -/
inductive Joint where
  | test
  | assignment (operator : String)
  | binary (operator : String)
deriving DecidableEq

def Joint.level : Joint → Nat
  | .test => Strength.conditional
  | .assignment _ => Strength.assignment
  | .binary operator => Strength.binary operator

/-- The strength that an operator asks of its right operand. -/
def rightLevel (operator : String) : Nat :=
  if operator == "**" then Strength.binary operator else Strength.binary operator + 1

namespace Token

def joint? : Token → Option Joint
  | .mark text =>
    if text = "?" then some .test
    else if text ∈ assignmentMarks then some (.assignment text)
    else if text ∈ binaryOperators then some (.binary text)
    else none
  | .word text => if text ∈ binaryOperators then some (.binary text) else none
  | .number _ => none

def unary? : Token → Option String
  | .mark text => if text ∈ unaryOperators then some text else none
  | .word text => if text ∈ unaryWords then some text else none
  | .number _ => none

def update? : Token → Option String
  | .mark text => if text ∈ ["++", "--"] then some text else none
  | _ => none

end Token

namespace Reader

/-- The operand with the update operator that may stand behind it. -/
def updated (n : Node) : List Token → Node × List Token
  | [] => (n, [])
  | t :: rest =>
    match t.update? with
    | some operator => (updateOf operator false n, rest)
    | none => (n, t :: rest)

/-- What was read, behind a punctuator that has to follow it. -/
def closing {α : Type} (mark : String) (found : α × List Token) : Option (α × List Token) :=
  match found.2 with
  | [] => none
  | t :: rest => if t = .mark mark then some (found.1, rest) else none

@[simp] theorem closing_mark
    {α : Type}
    (mark : String) (x : α) (rest : List Token) :
    closing mark (x, .mark mark :: rest) = some (x, rest) := by
  simp [closing]

/-- One expression stands for itself. -/
def sequenced : List Node → Node
  | [n] => n
  | ns => sequenceOf ns

mutual

def primary : Nat → List Token → Option (Node × List Token)
  | 0, _ | _, [] => none
  | fuel + 1, .mark text :: rest =>
    if text = "(" then (expression fuel rest).bind (closing ")") else none
  | _ + 1, .number raw :: rest => some (literalOf (.num (Numeral.value? raw) raw), rest)
  | fuel + 1, .word text :: rest =>
    if text = "new" then
      (chain fuel false rest).bind fun found =>
        match found.2 with
        | .mark "(" :: rest =>
          (listed fuel rest).bind fun args => some (newOf found.1 args.1, args.2)
        | rest => some (newOf found.1 [], rest)
    else if text = "this" then some (.mk .thisExpression {} [], rest)
    else
      match constants.lookup text with
      | some value => some (literalOf value, rest)
      | none => some (.identifier text, rest)

/-- A primary expression with the members and calls behind it. -/
def chain : Nat → Bool → List Token → Option (Node × List Token)
  | 0, _, _ => none
  | fuel + 1, calls, tokens =>
    (primary fuel tokens).bind fun found => suffixes fuel calls found.1 found.2

def suffixes : Nat → Bool → Node → List Token → Option (Node × List Token)
  | 0, _, _, _ => none
  | fuel + 1, calls, n, tokens =>
    match tokens with
    | .mark "." :: .word name :: rest => suffixes fuel calls (memberOf n name) rest
    | .mark "[" :: rest =>
      ((expression fuel rest).bind (closing "]")).bind fun index =>
        suffixes fuel calls (elementOf n index.1) index.2
    | .mark "(" :: rest =>
      if calls then
        (listed fuel rest).bind fun args => suffixes fuel calls (callOf n args.1) args.2
      else some (n, tokens)
    | _ => some (n, tokens)

def operand : Nat → List Token → Option (Node × List Token)
  | 0, _ | _, [] => none
  | fuel + 1, t :: rest =>
    match t.unary?, t.update? with
    | some operator, _ =>
      (operand fuel rest).bind fun found => some (unaryOf operator found.1, found.2)
    | none, some operator =>
      (operand fuel rest).bind fun found => some (updateOf operator true found.1, found.2)
    | none, none =>
      (chain fuel true (t :: rest)).bind fun found => some (updated found.1 found.2)

/-- An operation of at least some strength. -/
def operation : Nat → Nat → List Token → Option (Node × List Token)
  | 0, _, _ => none
  | fuel + 1, least, tokens =>
    (operand fuel tokens).bind fun found => operations fuel least found.1 found.2

/-- The operations of at least some strength that have the given left operand. -/
def operations : Nat → Nat → Node → List Token → Option (Node × List Token)
  | 0, _, _, _ => none
  | _ + 1, _, n, [] => some (n, [])
  | fuel + 1, least, n, t :: rest =>
    match t.joint? with
    | none => some (n, t :: rest)
    | some joint =>
      if joint.level < least then some (n, t :: rest)
      else
        (joined fuel joint n rest).bind fun found => operations fuel least found.1 found.2

/-- What a left operand is joined to. -/
def joined : Nat → Joint → Node → List Token → Option (Node × List Token)
  | 0, _, _, _ => none
  | fuel + 1, .binary operator, n, rest =>
    (operation fuel (rightLevel operator) rest).bind fun found =>
      some (binaryOf operator n found.1, found.2)
  | fuel + 1, .assignment operator, n, rest =>
    (operation fuel Strength.assignment rest).bind fun found =>
      some (assignmentOf operator n found.1, found.2)
  | fuel + 1, .test, n, rest =>
    ((operation fuel Strength.assignment rest).bind (closing ":")).bind fun consequent =>
      (operation fuel Strength.assignment consequent.2).bind fun alternate =>
        some (conditionalOf n consequent.1 alternate.1, alternate.2)

/-- The rest of a list of arguments. -/
def listed : Nat → List Token → Option (List Node × List Token)
  | 0, _ | _, [] => none
  | fuel + 1, t :: rest =>
    if t = .mark ")" then some ([], rest) else (items fuel (t :: rest)).bind (closing ")")

/-- Operations with commas between them. -/
def items : Nat → List Token → Option (List Node × List Token)
  | 0, _ => none
  | fuel + 1, tokens =>
    (operation fuel Strength.assignment tokens).bind fun first =>
      match first.2 with
      | .mark "," :: rest =>
        (items fuel rest).bind fun others => some (first.1 :: others.1, others.2)
      | rest => some ([first.1], rest)

def expression : Nat → List Token → Option (Node × List Token)
  | 0, _ => none
  | fuel + 1, tokens =>
    (items fuel tokens).bind fun found => some (sequenced found.1, found.2)

end

/-! ## What may follow -/

end Reader

/-- The strength at which a token takes what stands in front of it for a part of its own. -/
def Token.pull? (t : Token) : Option Nat :=
  if t ∈ [.mark ".", .mark "[", .mark "("] then some Strength.primary
  else if t ∈ [.mark "++", .mark "--"] then some Strength.member
  else if t = .mark "," then some Strength.sequence
  else t.joint?.map Joint.level

/-- Nothing of at least the given strength goes on in front of the tokens. -/
def stops (least : Nat) : List Token → Bool
  | [] => true
  | t :: _ => t.pull?.all fun strength => strength < least

theorem stops_mono
    {least least' : Nat} {rest : List Token}
    (hrest : stops least rest = true) (hle : least ≤ least') :
    stops least' rest = true := by
  cases rest with
  | nil => rfl
  | cons t rest =>
      simp only [stops, Option.all_eq_true, decide_eq_true_eq] at hrest ⊢
      intro strength hstrength
      exact Nat.lt_of_lt_of_le (hrest strength hstrength) hle

theorem Token.pull?_of_joint
    {t : Token} {joint : Joint}
    (hjoint : t.joint? = some joint) :
    t.pull? = some joint.level := by
  have hnone : ∀ t ∈ [Token.mark ".", .mark "[", .mark "(", .mark "++", .mark "--", .mark ","],
      t.joint? = none := by decide +kernel
  have hother : t ∉ [Token.mark ".", .mark "[", .mark "(", .mark "++", .mark "--", .mark ","] := by
    intro hmem
    rw [hnone t hmem] at hjoint
    cases hjoint
  simp only [List.mem_cons, List.not_mem_nil, or_false, not_or] at hother
  simp [Token.pull?, hother, hjoint]

namespace Reader

variable {n : Node} {tokens rest : List Token} {least : Nat} {calls : Bool}

theorem operations_stops (hrest : stops least rest = true) :
    Settles (fun fuel => operations fuel least n rest) (n, rest) := by
  refine .of_succ fun fuel => ?_
  cases rest with
  | nil => rfl
  | cons t rest =>
      cases hjoint : t.joint? with
      | none => simp [operations, hjoint]
      | some joint =>
          have hlevel : joint.level < least := by
            simpa [stops, Token.pull?_of_joint hjoint] using hrest
          simp [operations, hjoint, hlevel]

theorem suffixes_stops (hrest : stops Strength.primary rest = true) :
    Settles (fun fuel => suffixes fuel calls n rest) (n, rest) := by
  refine .of_succ fun fuel => ?_
  have hsuffix : ∀ t ∈ [Token.mark ".", .mark "[", .mark "("], ∀ rest,
      stops Strength.primary (t :: rest) = false := by
    intro t ht rest
    simp [stops, Token.pull?, ht]
  rw [suffixes]
  all_goals
    intros
    subst_vars
    rw [hsuffix _ (by decide)] at hrest
    cases hrest

theorem updated_stops (hrest : stops Strength.member rest = true) :
    updated n rest = (n, rest) := by
  cases rest with
  | nil => rfl
  | cons t rest =>
      cases hupdate : t.update? with
      | none => simp [updated, hupdate]
      | some operator =>
          exfalso
          cases t with
          | mark text =>
              simp only [Token.update?, Option.ite_none_right_eq_some] at hupdate
              have hfalse : ∀ text ∈ ["++", "--"],
                  (Token.mark text).pull? = some Strength.member := by decide +kernel
              simp [stops, hfalse text hupdate.1] at hrest
          | word text => cases hupdate
          | number raw => cases hupdate

/-! ## The forms of reading -/

/-- The tokens are read in a chain, up to what follows them there. -/
def Chains (calls : Bool) (tokens : List Token) (n : Node) : Prop :=
  ∀ rest x, Settles (fun fuel => suffixes fuel calls n rest) x →
    Settles (fun fuel => chain fuel calls (tokens ++ rest)) x

/-- The tokens are read as a whole chain. -/
def Closes (calls : Bool) (tokens : List Token) (n : Node) : Prop :=
  ∀ rest, stops Strength.primary rest = true →
    Settles (fun fuel => chain fuel calls (tokens ++ rest)) (n, rest)

/-- The tokens are read as an operand. -/
def Operand (tokens : List Token) (n : Node) : Prop :=
  ∀ rest, stops Strength.member rest = true →
    Settles (fun fuel => operand fuel (tokens ++ rest)) (n, rest)

/-- The tokens are read as the first operands of an operation, in front of what `follow` lets
stand behind them. -/
def Operates (level follow : Nat) (tokens : List Token) (n : Node) : Prop :=
  ∀ least rest x, least ≤ level → stops follow rest = true →
    Settles (fun fuel => operations fuel least n rest) x →
      Settles (fun fuel => operation fuel least (tokens ++ rest)) x

def Expresses (tokens : List Token) (n : Node) : Prop :=
  ∀ rest, stops Strength.sequence rest = true →
    Settles (fun fuel => expression fuel (tokens ++ rest)) (n, rest)

theorem Chains.of_primary
    (hprimary : ∀ rest, Settles (fun fuel => primary fuel (tokens ++ rest)) (n, rest)) :
    Chains calls tokens n :=
  fun rest _ hsuffixes => .step (hprimary rest) hsuffixes fun _ => rfl

theorem Chains.closes (hchain : Chains calls tokens n) :
    Closes calls tokens n :=
  fun rest hrest => hchain rest _ (suffixes_stops hrest)

theorem Operates.mono
    {level level' follow follow' : Nat}
    (hoperates : Operates level follow tokens n)
    (hlevel : level' ≤ level)
    (hfollow : follow' ≤ follow) :
    Operates level' follow' tokens n :=
  fun least rest x hleast hrest =>
    hoperates least rest x (Nat.le_trans hleast hlevel) (stops_mono hrest hfollow)

theorem Operand.operates
    {level follow : Nat}
    (hoperand : Operand tokens n) (hfollow : follow ≤ Strength.member) :
    Operates level follow tokens n :=
  fun _ rest _ _ hrest hoperations =>
    .step (hoperand rest (stops_mono hrest hfollow)) hoperations fun _ => rfl

/-- In front of a rest that stops it, an operation is read as a whole. -/
theorem Operates.exact
    {level follow : Nat}
    (hoperates : Operates level follow tokens n)
    (hleast : least ≤ level)
    (hfollow : stops follow rest = true)
    (hrest : stops least rest = true) :
    Settles (fun fuel => operation fuel least (tokens ++ rest)) (n, rest) :=
  hoperates least rest _ hleast hfollow (operations_stops hrest)

/-- A left operand, a joint and what stands behind the joint make up an operation. -/
theorem Operates.join
    {level follow level' follow' : Nat} {t : Token} {joint : Joint} {made : Node}
    {behind : List Token}
    (hleft : Operates level follow tokens n)
    (hjoint : t.joint? = some joint)
    (hlevel : level' ≤ joint.level)
    (hle : level' ≤ level)
    (hfollow : joint.level < follow)
    (hbehind : ∀ rest, stops follow' rest = true →
      Settles (fun fuel => joined fuel joint n (behind ++ rest)) (made, rest)) :
    Operates level' follow' (tokens ++ t :: behind) made := by
  intro least rest x hleast hrest hoperations
  rw [List.append_assoc, List.cons_append]
  have hstops : stops follow (t :: (behind ++ rest)) = true := by
    simpa [stops, Token.pull?_of_joint hjoint] using hfollow
  refine hleft least _ x (Nat.le_trans hleast hle) hstops ?_
  refine .step (g := fun fuel found => operations fuel least found.1 found.2)
    (hbehind rest hrest) hoperations fun fuel => ?_
  have hstrong : ¬joint.level < least := by omega
  simp [operations, hjoint, hstrong]

end Reader
end Graft.Ecma
