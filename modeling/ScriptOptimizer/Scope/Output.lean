import ScriptOptimizer.Scope.Resolution

/-!
# Names in the output

A captured binding and a declared function keep a name in the output. Bindings of blocks are declared by
their function there, so they get a fresh name; the others keep their own unless it is taken.
-/

namespace ScriptOptimizer

def numbered (name : String) (k : Nat) : String := s!"{name}${k}"

namespace Names

/-- The first numbered form of a name that is neither claimed nor spelled in the script. One of as many
candidates as there are such names, plus one, is free. -/
def fresh (n : Names) (claimed : NameSet) (name : String) : String :=
  let candidates := (List.range (claimed.size + n.reserved.size + 1)).map fun k =>
    numbered name (k + 1)
  (candidates.find? fun c => !claimed.contains c && !n.reserved.contains c).getD name

/-- A name itself if it is free, otherwise a fresh one. -/
def claim (n : Names) (claimed : NameSet) (name : String) : String :=
  if claimed.contains name then n.fresh claimed name else name

/-- Gives a binding its name in the output. -/
def setOutput (n : Names) (b : BindingId) (output : String) : Names :=
  n.modifyBinding b fun x => { x with output }

/-- Whether a binding keeps a name in the output. -/
def keepsName (b : Binding) : Bool := b.pinned || b.kind == .function

/-- Names a binding of a function's own scope. -/
def nameOwn (claimed : NameSet) (n : Names) (b : BindingId) : NameSet × Names :=
  let x := n.binding b
  if x.isGlobal || x.kind == .param then (claimed.insert x.name, n)
  else if x.kind != .self && keepsName x then
    let output := n.claim claimed x.name
    (claimed.insert output, n.setOutput b output)
  else (claimed, n)

/-- Names the own name of a function expression. -/
def nameSelf (claimed : NameSet) (n : Names) (f : Signature) : NameSet × Names :=
  match n.lookup f.scope f.name with
  | some b =>
    if (n.binding b).kind = .self then
      let output := n.claim claimed f.name
      (claimed.insert output, n.setOutput b output)
    else (claimed, n)
  | none => (claimed, n)

/-- Names a binding of a block. -/
def nameInner (claimed : NameSet) (n : Names) (b : BindingId) : NameSet × Names :=
  let x := n.binding b
  if keepsName x then
    let output := n.fresh claimed x.name
    (claimed.insert output, n.setOutput b output)
  else (claimed, n)

/-- Whether a captured binding is declared by its name at the top of its function. -/
def isDeclared (b : Binding) : Bool :=
  b.pinned && !b.isGlobal && b.kind != .param && b.kind != .self && b.kind != .function

/-- Names the bindings of a function. -/
def nameFunction (n : Names) (func : FuncId) : Names :=
  let f := n.function func
  let step := fun name (acc : NameSet × Names) b => name acc.1 acc.2 b
  let params : NameSet := f.params.foldl (fun c p => c.insert p.name) {}
  let own := (n.scope f.scope).bindings.foldl (step nameOwn) (params, n)
  let named := nameSelf own.1 own.2 f
  let scopes := n.scopesOf func
  let inner := (scopes.filter (· ≠ f.scope)).flatMap fun s => (n.scope s).bindings
  let n := (inner.foldl (step nameInner) named).2
  let declared := (scopes.flatMap fun s => (n.scope s).bindings).filter fun b =>
    isDeclared (n.binding b)
  n.modifyFunction func fun f => { f with pinned := declared.map fun b => (n.binding b).output }

/-- Names the bindings of all functions. -/
def nameAll (n : Names) : Names := (List.range n.functions.size).foldl nameFunction n

end Names

/-- Resolves the names of a script and chooses those of the output. -/
def Script.resolve (s : Script) : Except Failure (Script × Names) := do
  let (s, n) ← (Resolution.script s).run {}
  return (s, n.nameAll)

end ScriptOptimizer
