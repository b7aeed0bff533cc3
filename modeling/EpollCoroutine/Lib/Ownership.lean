import Mathlib.Tactic

/-!
# Who owns what

Resources that are taken, used and given up. What has been given up may be taken again, by anybody:
a resource is a name, such as a descriptor number.

* `Act`: what somebody does with a resource.
* `owners`: who owns each resource after a list of acts.
* `Rightful`: nobody takes what is owned, and only its owner uses a resource or gives it up.
-/

namespace Ownership

variable {ω ρ : Type*}

/-- Something that the party `o` does with the resource `r`. -/
inductive Act (ω ρ : Type*)
  | take (o : ω) (r : ρ)
  | use (o : ω) (r : ρ)
  | giveUp (o : ω) (r : ρ)

/-- Whether `o` may do that, when `own` says who owns what. -/
def Act.Rightful (own : ρ → Option ω) : Act ω ρ → Prop
  | .take _ r => own r = none
  | .use o r | .giveUp o r => own r = some o

variable [DecidableEq ρ]

/-- Who owns what afterwards. -/
def Act.after (own : ρ → Option ω) : Act ω ρ → ρ → Option ω
  | .take o r => Function.update own r (some o)
  | .use _ _ => own
  | .giveUp _ r => Function.update own r none

/-- Who owns what after a list of acts. -/
def owners (own : ρ → Option ω) (l : List (Act ω ρ)) : ρ → Option ω := l.foldl Act.after own

/-- Everything is done by who may do it. -/
def Rightful (own : ρ → Option ω) : List (Act ω ρ) → Prop
  | [] => True
  | a :: l => a.Rightful own ∧ Rightful (a.after own) l

variable {own : ρ → Option ω} {l l' : List (Act ω ρ)}

@[simp] theorem owners_nil : owners own ([] : List (Act ω ρ)) = own := rfl

@[simp] theorem owners_cons (a : Act ω ρ) (l : List (Act ω ρ)) :
    owners own (a :: l) = owners (a.after own) l := rfl

theorem owners_append : owners own (l ++ l') = owners (owners own l) l' := List.foldl_append

@[simp] theorem rightful_nil : Rightful own ([] : List (Act ω ρ)) := trivial

@[simp] theorem rightful_cons (a : Act ω ρ) (l : List (Act ω ρ)) :
    Rightful own (a :: l) ↔ a.Rightful own ∧ Rightful (a.after own) l := Iff.rfl

theorem rightful_append :
    Rightful own (l ++ l') ↔ Rightful own l ∧ Rightful (owners own l) l' := by
  induction l generalizing own with
  | nil => simp
  | cons a l ih => simp only [List.cons_append, rightful_cons, ih, owners_cons, and_assoc]

/-- What has been given up is not given up again before it is taken. -/
theorem not_rightful_giveUp_twice (o o' : ω) (r : ρ) :
    ¬ Rightful own (.giveUp o r :: .giveUp o' r :: l) := by
  rintro ⟨-, h, -⟩
  simp [Act.Rightful, Act.after] at h

end Ownership
