import Easing.Outcome
import Easing.Random.Generator

/-! # Operations that draw random numbers

Reading a definition may draw break points. Such an operation takes the
generator to its next state whether it has a result or not: a fault leaves the
generator where the last draw before it did.
-/

namespace Easing

/-- An operation that draws random numbers. -/
def Build (α β : Type) : Type := Generator → Outcome α β × Generator

namespace Build

variable {α β γ : Type}

/-- An operation that draws nothing. -/
def ofOutcome (outcome : Outcome α β) : Build α β := fun g => (outcome, g)

/-- An operation without a result. -/
def fault (f : Fault α) : Build α β := ofOutcome (.fault f)

def draw (next : Generator → β × Generator) : Build α β := fun g =>
  let (b, g) := next g
  (pure b, g)

/-- An operation that draws from a generator of its own. -/
def isolated (g : Generator) (operation : Build α β) : Build α β := fun h => ((operation g).1, h)

/-- The first operation and then, if it has a result, the second. -/
def bind (first : Build α β) (second : β → Build α γ) : Build α γ := fun g =>
  match first g with
  | (⟨notices, .error f⟩, g) => (⟨notices, .error f⟩, g)
  | (⟨notices, .ok b⟩, g) =>
    let (outcome, g) := second b g
    (⟨notices ++ outcome.notices, outcome.result⟩, g)

instance : Monad (Build α) where
  pure b := ofOutcome (pure b)
  bind := bind

instance : LawfulMonad (Build α) :=
  LawfulMonad.mk' (Build α)
    (fun x => by
      funext g
      rcases h : x g with ⟨⟨notices, _ | b⟩, g'⟩ <;>
        simp [Functor.map, bind, ofOutcome, h])
    (fun b second => by funext g; simp [pure, Bind.bind, bind, ofOutcome])
    (fun x second third => by
      funext g
      rcases h : x g with ⟨⟨notices, f | b⟩, g'⟩
      · simp [Bind.bind, bind, h]
      · rcases h' : second b g' with ⟨⟨notices', f | c⟩, g''⟩ <;> simp [Bind.bind, bind, h, h'])

end Build

end Easing
