import Graft.Proofs.Progress

/-!
# What parsers yield

A parser yields a property if every result that it gives has it, from whatever place it starts and
wherever it ends.
-/

namespace Graft.Grammar

variable {α β : Type} {P : α → Prop} {Q : β → Prop} {p q : Parser α}

/-- Every result of the parser has the property. -/
def Yields (p : Parser α) (P : α → Prop) : Prop := From 0 p fun a _ => P a

/-- What is known of the results and of the places behind them, without the places. -/
theorem From.yields {R : α → Nat → Prop} (hp : From 0 p R) : Yields p fun a => ∃ hi, R a hi :=
  hp.imp fun _ hi ha => ⟨hi, ha⟩

namespace Yields

theorem of_pure {a : α} (ha : P a) : Yields (pure a) P := From.of_pure fun _ _ => ha

theorem of_unexpected : Yields (unexpected : Parser α) P := From.of_unexpected

theorem bind {f : α → Parser β} (hp : Yields p P) (hf : ∀ a, P a → Yields (f a) Q) :
    Yields (p >>= f) Q :=
  From.bind hp fun a _ ha => From.mono (hf a ha) (Nat.zero_le _)

theorem skip {f : α → Parser β} (hf : ∀ a, Yields (f a) Q) : Yields (p >>= f) Q :=
  From.skip (fun _ _ _ _ _ => Nat.zero_le _) hf

theorem imp {P' : α → Prop} (hp : Yields p P) (himp : ∀ a, P a → P' a) : Yields p P' :=
  From.imp hp fun a _ => himp a

theorem map {f : α → β} (hp : Yields p fun a => Q (f a)) : Yields (f <$> p) Q := From.map hp

theorem ite
    {c : Prop} [Decidable c]
    (hp : Yields p P) (hq : Yields q P) :
    Yields (if c then p else q) P :=
  From.ite hp hq

theorem either (hp : Yields p P) (hq : Yields q P) : Yields (Grammar.either p q) P :=
  From.either hp hq

theorem attempt (hp : Yields p P) :
    Yields (Grammar.attempt p) fun result => ∀ a, result = some a → P a := by
  refine From.attempt (From.imp hp ?_) nofun
  rintro a _ ha _ ⟨⟩
  exact ha

theorem of_none : Yields (pure none) fun result => ∀ a, result = some a → P a :=
  of_pure nofun

theorem some (hp : Yields p P) :
    Yields (Option.some <$> p) fun result => ∀ a, result = Option.some a → P a := by
  refine map (hp.imp ?_)
  rintro a ha _ ⟨⟩
  exact ha

theorem whileMore {more : Cursor → Bool} (hp : Yields p P) :
    Yields (Grammar.whileMore more p) fun as => ∀ a ∈ as, P a := by
  refine From.whileMore (I := fun _ as _ => ∀ a ∈ as, P a) (by simp) fun _ => ?_
  refine (From.mono hp (Nat.zero_le _)).imp fun a _ ha as _ has => ?_
  exact List.forall_mem_cons.mpr ⟨ha, has⟩

end Yields

end Graft.Grammar
