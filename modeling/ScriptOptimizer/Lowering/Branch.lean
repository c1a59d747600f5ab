import ScriptOptimizer.Lowering.State

/-!
# Branches

Both arms of a branch start with the same values of the bindings. Behind it, a binding whose value
differs between the arms that get there is held by a merging temp, which is defined in front of the
branch and copied into at the end of each arm.
-/

namespace ScriptOptimizer.Lowering

open IR

/-- A path that reaches the end of a branch. -/
structure Arm where
  /-- The values of the bindings at its end. -/
  values : List (Option Operand)
  /-- The block in which it ends; `none` when the branch has no second arm. -/
  last : Option BlockId

/-- Gives bindings their values. -/
def restore (bindings : List BindingId) (values : List (Option Operand)) : Lower Unit :=
  (bindings.zip values).forM fun (b, v) => setValue b v

/-- Lowers an arm into a new block; gives its block and, if control reaches its end, the arm. -/
def lowerArm (c : Site) (s : StmtId) (tracked : List BindingId) (before : List (Option Operand))
    (arm : Site → Lower Unit) : Lower (BlockId × Option Arm) := do
  let b ← newBlock c.func (some s)
  let ((), last, terminated) ← within b (arm { c with parent := some s, nest := c.nest + 1 })
  let values ← tracked.mapM value?
  restore tracked before
  return (b, if terminated then none else some ⟨values, some last⟩)

/-- Whether all values are there and the same as the first. -/
def allSame (first : Operand) (others : List (Option Operand)) : Bool :=
  others.all fun v => v.any first.same

/-- Copies the value of one arm into a merging temp. -/
def copyArm (c : Site) (s : StmtId) (merge : TempId) (pos : Position) (last : Option BlockId)
    (value : Option Operand) : Lower Unit := do
  match last with
  | none =>
    let copy ← copyInto merge value ((← program).stmt s).block c.parent pos
    insertBefore s copy
  | some b =>
    let copy ← copyInto merge value b (some s) pos
    append b copy

/-- Gives a binding its value behind a branch, from its values at the ends of the arms. -/
def mergeBinding (c : Site) (s : StmtId) (pos : Position) (b : BindingId)
    (ends : List (Option BlockId × Option Operand)) : Lower Unit := do
  match ends with
  | [] => pure ()
  | (_, none) :: _ => setValue b none
  | (_, some first) :: others =>
    if allSame first (others.map Prod.snd) then setValue b (some first)
    else
      let (merge, definition) ← newMerge c ((← program).stmt s).block pos
      insertBefore s definition
      ends.forM fun (last, value) => copyArm c s merge pos last value
      setValue b (some (.temp merge))

/-- Gives the bindings their values behind a branch. -/
def mergeBindings (c : Site) (s : StmtId) (pos : Position) (arms : List Arm) :
    List BindingId → Nat → Lower Unit
  | [], _ => pure ()
  | b :: bs, i => do
    mergeBinding c s pos b (arms.map fun a => (a.last, a.values.getD i none))
    mergeBindings c s pos arms bs (i + 1)

/-- Lowers a branch with one or two arms and merges the values of the visible bindings and of further
ones. -/
def branch (c : Site) (cond : Operand) (thenArm : Site → Lower Unit)
    (elseArm : Option (Site → Lower Unit)) (extra : List BindingId) (pos : Position) : Lower Unit := do
  let tracked := (← visible c) ++ extra
  let before ← tracked.mapM value?
  let start := (← get).block
  let thenBlock := (← program).blocks.size
  let s ← emit c (.branch cond thenBlock none none) pos []
  let (_, first) ← lowerArm c s tracked before thenArm
  let second ← match elseArm with
    | some arm => do
      let (b, second) ← lowerArm c s tracked before arm
      modifyProgram fun p => p.modifyStmt s fun x =>
        { x with action := .branch cond thenBlock (some b) none }
      pure second
    | none => pure (some ⟨before, none⟩)
  continueFrom c start
  let arms := first.toList ++ second.toList
  if arms.isEmpty then modify fun s => { s with terminated := true }
  else mergeBindings c s pos arms tracked 0

end ScriptOptimizer.Lowering
