import ScriptOptimizer.Diagnostic.Fault

/-!
# Checked values

The grammar accepts more than the language: reserved words as names, malformed literals, statements that
run together. A checked value carries the first such fault, so that it counts only when the whole source
matches the grammar.
-/

namespace ScriptOptimizer

/-- A value and the first fault found while it was built. -/
structure Checked (α : Type) where
  value : α
  fault : Option Failure := none

namespace Checked

instance : Monad Checked where
  pure a := ⟨a, none⟩
  bind x f :=
    let y := f x.value
    ⟨y.value, x.fault <|> y.fault⟩

/-- A fault on its own. -/
def fail (fault : Fault) (pos : Position) : Checked Unit := ⟨(), some ⟨fault, pos⟩⟩

/-- Checks an optional value. -/
def option : Option (Checked α) → Checked (Option α)
  | none => pure none
  | some x => do return some (← x)

/-- Checks the items of a list in order. -/
def list : List (Checked α) → Checked (List α)
  | [] => pure []
  | x :: xs => do return (← x) :: (← list xs)

/-- The value, or the fault. -/
def toExcept (x : Checked α) : Except Failure α :=
  match x.fault with
  | some f => .error f
  | none => .ok x.value

end Checked

end ScriptOptimizer
