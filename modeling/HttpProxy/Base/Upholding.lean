import Mathlib.Tactic.TypeStar

/-!
# What a program upholds

Programs with a state and exceptions: `Upholds I x Q` says that `x` keeps `I`, also where it
throws, and that what it returns satisfies `Q`. Exceptions take nothing back.
-/

namespace Upholding

variable {ε σ α β : Type}

/-- `I` holds after the program too, and `Q` of its result. -/
def Kept (I : σ → Prop) (Q : α → Prop) : EStateM.Result ε σ α → Prop
  | .ok a t => I t ∧ Q a
  | .error _ t => I t

structure Upholds (I : σ → Prop) (x : EStateM ε σ α) (Q : α → Prop) : Prop where
  kept : ∀ s, I s → Kept I Q (x s)

section
variable {I : σ → Prop} {x : EStateM ε σ α} {f : α → EStateM ε σ β} {P Q : α → Prop} {R : β → Prop}

theorem Upholds.bind (hx : Upholds I x Q) (hf : ∀ a, Q a → Upholds I (f a) R) :
    Upholds I (x >>= f) R := by
  constructor
  intro s hs
  have first := hx.kept s hs
  cases run : x s with
  | error e t =>
    have both : (x >>= f) s = .error e t := by simp [Bind.bind, EStateM.bind, run]
    rw [run] at first
    rw [both]
    exact first
  | ok a t =>
    have both : (x >>= f) s = f a t := by simp [Bind.bind, EStateM.bind, run]
    rw [run] at first
    rw [both]
    exact (hf a first.2).kept t first.1

/-- Where the first result does not matter. -/
theorem Upholds.next (hx : Upholds I x fun _ => True) (hf : ∀ a, Upholds I (f a) R) :
    Upholds I (x >>= f) R := hx.bind fun a _ => hf a

theorem upholds_pure {a : α} (h : Q a) : Upholds I (pure a : EStateM ε σ α) Q := ⟨fun _ hs => ⟨hs, h⟩⟩

theorem upholds_throw (e : ε) : Upholds I (throw e : EStateM ε σ α) Q := ⟨fun _ hs => hs⟩

theorem upholds_get : Upholds I (get : EStateM ε σ σ) I := ⟨fun _ hs => ⟨hs, hs⟩⟩

end

end Upholding
