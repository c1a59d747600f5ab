import ScriptOptimizer.Emission.Expression

/-!
# Waiting temps

A temp with a single reader waits for it. The reader takes up the waiting temps when they are the last
ones and evaluating them inside the reader keeps every read and every effect in its order; otherwise they
are declared in front of it.
-/

namespace ScriptOptimizer.Emission

open IR

/-- Whether a definition computes its value from its operands alone. -/
def isPure (s : IR.Stmt) : Bool :=
  s.effects.isEmpty &&
    match s.action with
    | .define _ (.unary ..) _ => true
    | .define _ (.binary op ..) _ => op != .within && op != .instanceOf
    | _ => false

/-- What evaluating an operand meets: the waiting temps that it takes up, and in order the points in time
at which it reads storage that can change or has an effect. -/
structure Plan where
  used : List Nat := []
  events : List Nat := []

/-- Two plans, one behind the other. -/
def Plan.append (a b : Plan) : Plan := ⟨a.used ++ b.used, a.events ++ b.events⟩

/-- The plan of several operands. -/
def Plan.concat (plans : List Plan) : Plan := plans.foldl Plan.append {}

/-- The plan of an operand that is read at a point in time. A waiting temp was computed at its own place
in the order; those that it reads wait in front of it, so their number bounds the recursion. -/
def plan (p : Program) (pending : List (TempId × StmtId)) : Nat → Nat → Operand → Plan
  | 0, _, _ => {}
  | fuel + 1, now, x =>
    match x with
    | .temp t =>
      match pending.findIdx? (·.1 == t) with
      | some k =>
        let s := p.stmt ((pending[k]?.map Prod.snd).getD 0)
        let inner := Plan.concat (s.action.operands.map (plan p pending fuel k))
        ⟨k :: inner.used, if isPure s then inner.events else inner.events ++ [k]⟩
      | none => if p.isMerge t then { events := [now] } else {}
    | .named _ pinned => if pinned then { events := [now] } else {}
    | .global s => if p.assigned.contains s then { events := [now] } else {}
    | _ => {}

/-- Whether points in time never go back. -/
def isOrdered : List Nat → Bool
  | a :: b :: rest => a ≤ b && isOrdered (b :: rest)
  | _ => true

/-- From which of `n` waiting temps on a plan takes them up. -/
def takenFrom (plan : Plan) (n : Nat) : Nat :=
  let first := plan.used.foldl min n
  let isSuffix := (List.range' first (n - first)).all plan.used.contains
  if isOrdered plan.events && isSuffix then first else n

/-- Declares waiting temps. -/
def declarePending (closure : Closure) (list : List (TempId × StmtId)) : Emit Unit :=
  list.forM fun (t, s) => do
    match ((← read).stmt s).action with
    | .define _ v _ =>
      let v ← value closure v
      put (declaration (← register t) (some v))
    | _ => pure ()

/-- Prepares the waiting temps for a statement that reads some operands. -/
def consume (closure : Closure) (roots : List Operand) : Emit Unit := do
  let pending := (← frame).pending
  unless pending.isEmpty do
    let p ← read
    let n := pending.length
    let k := takenFrom (Plan.concat (roots.map (plan p pending (n + 1) n))) n
    declarePending closure (pending.take k)
    modifyFrame fun f => { f with taken := (pending.drop k).map Prod.fst }

/-- Ends the statement that took up waiting temps. -/
def done : Emit Unit := modifyFrame fun f => { f with pending := [], taken := [] }

/-- Declares all waiting temps. -/
def flush (closure : Closure) : Emit Unit := do
  declarePending closure (← frame).pending
  done

end ScriptOptimizer.Emission
