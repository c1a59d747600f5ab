import Mathlib.Logic.Relation
import ScriptOptimizer.Scope.Resolution

/-!
# Scopes under construction

Resolution changes the names of a script in a few kinds of steps. Each of them keeps the scopes in order:
every scope stands in one of its own function or, for a function, of the function around it; the bindings
of a scope have different names; and what is captured is spelled in the script.
-/

/-- Where a binding is declared that every round of a loop declares anew. -/
def ScriptOptimizer.Binding.renewed? (x : ScriptOptimizer.Binding) : Option ScriptOptimizer.Position :=
  if x.isLexical && x.inLoop then some x.pos else none

namespace ScriptOptimizer.Names

variable {s : ScopeId} {name : String} {b : BindingId}

/-- Whether a name is empty or spelled in the script. -/
def Spells (n : Names) (name : String) : Prop := name = "" ∨ name ∈ n.reserved

/-! ## Reading changed names -/

variable (n : Names)

theorem binding_modifyBinding (b c : BindingId) (f : Binding → Binding) :
    (n.modifyBinding b f).binding c =
      if c = b ∧ b < n.bindings.size then f (n.binding c) else n.binding c := by
  simp only [binding, modifyBinding, Array.getD_eq_getD_getElem?, Array.getElem?_modify]
  by_cases hc : c = b
  · subst c
    by_cases hb : b < n.bindings.size <;> simp [hb]
  · simp [hc, Ne.symm hc]

theorem function_modifyFunction (f g : FuncId) (h : Signature → Signature) :
    (n.modifyFunction f h).function g =
      if g = f ∧ f < n.functions.size then h (n.function g) else n.function g := by
  simp only [function, modifyFunction, Array.getD_eq_getD_getElem?, Array.getElem?_modify]
  by_cases hc : g = f
  · subst g
    by_cases hb : f < n.functions.size <;> simp [hb]
  · simp [hc, Ne.symm hc]

theorem scope_of_ge (hs : n.scopes.size ≤ s) : n.scope s = default := by
  simp [scope, hs]

theorem function_of_ge {f : FuncId} (hf : n.functions.size ≤ f) : n.function f = default := by
  simp [function, hf]

/-- A binding that a mark was set on keeps what the mark does not touch. -/
theorem binding_modifyBinding_congr {α : Type} (view : Binding → α) {f : Binding → Binding}
    (hf : ∀ x, view (f x) = view x) (b c : BindingId) :
    view ((n.modifyBinding b f).binding c) = view (n.binding c) := by
  rw [binding_modifyBinding]
  split
  · exact hf _
  · rfl

theorem function_modifyFunction_congr {α : Type} (view : Signature → α) {h : Signature → Signature}
    (hh : ∀ x, view (h x) = view x) (f g : FuncId) :
    view ((n.modifyFunction f h).function g) = view (n.function g) := by
  rw [function_modifyFunction]
  split
  · exact hh _
  · rfl

@[simp] theorem bindings_size_modifyBinding (b : BindingId) (f : Binding → Binding) :
    (n.modifyBinding b f).bindings.size = n.bindings.size := by
  simp [modifyBinding]

@[simp] theorem functions_size_modifyFunction (f : FuncId) (h : Signature → Signature) :
    (n.modifyFunction f h).functions.size = n.functions.size := by
  simp [modifyFunction]

/-- Declaring a name that a scope has already. -/
theorem declare_of_some (h : n.lookup s name = some b)
    (kind : BindingKind) (pos : Position) : n.declare s name kind pos =
      (if kind = .function then n.modifyBinding b fun x => { x with kind := .function } else n, b) := by
  rw [declare, h]

/-- The names with one more binding. -/
def addBinding (s : ScopeId) (x : Binding) : Names :=
  { n with
    bindings := n.bindings.push x
    scopes := n.scopes.modify s fun y => { y with bindings := y.bindings ++ [n.bindings.size] } }

theorem declare_of_none (h : n.lookup s name = none) (kind : BindingKind)
    (pos : Position) : n.declare s name kind pos =
      (n.addBinding s { name, kind, scope := s, pos }, n.bindings.size) := by
  rw [declare, h]
  rfl

theorem binding_addBinding (s : ScopeId) (x : Binding) (b : BindingId) :
    (n.addBinding s x).binding b = if b = n.bindings.size then x else n.binding b := by
  simp only [binding, addBinding, Array.getD_eq_getD_getElem?, Array.getElem?_push]
  split <;> rfl

theorem scope_addBinding (s t : ScopeId) (x : Binding) :
    (n.addBinding s x).scope t = if t = s ∧ s < n.scopes.size then
      { n.scope t with bindings := (n.scope t).bindings ++ [n.bindings.size] } else n.scope t := by
  simp only [scope, addBinding, Array.getD_eq_getD_getElem?, Array.getElem?_modify]
  by_cases ht : t = s
  · subst t
    by_cases hs : s < n.scopes.size <;> simp [hs]
  · simp [ht, Ne.symm ht]

@[simp] theorem scopes_size_addBinding (s : ScopeId) (x : Binding) :
    (n.addBinding s x).scopes.size = n.scopes.size := by
  simp [addBinding]

@[simp] theorem bindings_size_addBinding (s : ScopeId) (x : Binding) :
    (n.addBinding s x).bindings.size = n.bindings.size + 1 := by
  simp [addBinding]

@[simp] theorem functions_addBinding (s : ScopeId) (x : Binding) :
    (n.addBinding s x).functions = n.functions := rfl

/-- The names with one more scope. -/
def addScope (x : Scope) : Names := { n with scopes := n.scopes.push x }

theorem scope_addScope (x : Scope) (s : ScopeId) :
    (n.addScope x).scope s = if s = n.scopes.size then x else n.scope s := by
  simp only [scope, addScope, Array.getD_eq_getD_getElem?, Array.getElem?_push]
  split <;> rfl

@[simp] theorem scopes_size_addScope (x : Scope) : (n.addScope x).scopes.size = n.scopes.size + 1 := by
  simp [addScope]

theorem scope_openBlock (s t : ScopeId) : (n.openBlock s).1.scope t = if t = n.scopes.size then
    { owner := (n.scope s).owner, isFunction := false, outer := n.chain s } else n.scope t :=
  n.scope_addScope _ t

/-- The names with one more function. -/
def addSignature (x : Signature) : Names := { n with functions := n.functions.push x }

theorem function_addSignature (x : Signature) (f : FuncId) :
    (n.addSignature x).function f = if f = n.functions.size then x else n.function f := by
  simp only [function, addSignature, Array.getD_eq_getD_getElem?, Array.getElem?_push]
  split <;> rfl

@[simp] theorem functions_size_addSignature (x : Signature) :
    (n.addSignature x).functions.size = n.functions.size + 1 := by
  simp [addSignature]

theorem functions_declare (s : ScopeId) (name : String) (kind : BindingKind) (pos : Position) :
    (n.declare s name kind pos).1.functions = n.functions := by
  unfold declare
  split
  · dsimp only
    split <;> rfl
  · rfl

theorem functions_reserve (name : String) : (n.reserve name).functions = n.functions := by
  unfold reserve
  split <;> rfl

theorem mem_reserve {x : String} : x ∈ (n.reserve name).reserved ↔ x ∈ n.reserved ∨ (x = name ∧ name ≠ "") := by
  unfold reserve
  split
  · next h => simp [h]
  · next h => simp [h, Std.TreeSet.mem_insert, or_comm, @eq_comm _ x]

/-! ## Steps -/

/-- Declares a parameter of a function. -/
def addParam (s : ScopeId) (f : FuncId) (name : String) (pos : Position) : Names :=
  let (m, b) := n.declare s name .param pos
  (m.modifyBinding b fun x => { x with onEntry := true, output := name }).modifyFunction f fun g =>
    { g with params := g.params ++ [{ name }] }

theorem functions_size_addParam (s : ScopeId) (f : FuncId) (name : String) (pos : Position) :
    (n.addParam s f name pos).functions.size = n.functions.size := by
  rw [← n.functions_declare s name .param pos]
  exact functions_size_modifyFunction _ _ _

/-- Declares the own name of a function expression. -/
def addSelf (s : ScopeId) (name : String) (pos : Position) : Names :=
  let (m, b) := n.declare s name .self pos
  m.modifyBinding b fun x => { x with onEntry := true, output := name }

/-- Opens a function inside a scope. -/
def addFunction (s : ScopeId) (name : String) (isExpression : Bool) : Names :=
  (n.addScope { owner := n.functions.size, isFunction := true, outer := n.chain s }).addSignature
    { name, parent := some (n.scope s).owner, isExpression, scope := n.scopes.size }

theorem function_addFunction (s : ScopeId) (name : String) (isExpression : Bool) (f : FuncId) :
    (n.addFunction s name isExpression).function f = if f = n.functions.size then
      { name, parent := some (n.scope s).owner, isExpression, scope := n.scopes.size } else n.function f :=
  (n.addScope _).function_addSignature _ f

theorem scope_addFunction (s t : ScopeId) (name : String) (isExpression : Bool) :
    (n.addFunction s name isExpression).scope t = if t = n.scopes.size then
      { owner := n.functions.size, isFunction := true, outer := n.chain s } else n.scope t :=
  n.scope_addScope _ t

/-- Declares a name that cannot be read before its declaration. -/
def addLexical (s : ScopeId) (name : String) (kind : BindingKind) (pos : Position) (inLoop : Bool) : Names :=
  let (m, b) := n.declare s name kind pos
  m.modifyBinding b fun x => { x with inLoop }

theorem functions_addLexical (s : ScopeId) (name : String) (kind : BindingKind) (pos : Position) (inLoop : Bool) :
    (n.addLexical s name kind pos inLoop).functions = n.functions := n.functions_declare s name kind pos

/-- What resolution does to the names of a script, one step at a time. The names that are declared are
among `R`, in scopes from `k` on; those that are captured or reserved, and those of parameters, among `Q`. -/
inductive Step (Q R : String → Prop) (k : ScopeId) : Names → Names → Prop where
  | reserve {n : Names} (name : String) (reserved : name = "" ∨ Q name) : Step Q R k n (n.reserve name)
  | assign {n : Names} (name : String) : Step Q R k n { n with assigned := n.assigned.insert name }
  | useArguments {n : Names} (f : FuncId) :
    Step Q R k n (n.modifyFunction f fun x => { x with usesArguments := true })
  | pin {n : Names} (b : BindingId) (captured : Q (n.binding b).name)
    (isLocal : (n.binding b).isGlobal = true → (n.binding b).scope ≠ 0) (lasting : (n.binding b).renewed? = none) :
    Step Q R k n (n.modifyBinding b fun x => { x with pinned := true })
  | declare {n : Names} {s : ScopeId} {name : String} {kind : BindingKind} {pos : Position} (hk : k ≤ s)
    (hs : s < n.scopes.size) (hparam : kind ≠ .param) (hself : kind ≠ .self) (declared : R name) :
    Step Q R k n (n.declare s name kind pos).1
  | addLexical {n : Names} {s : ScopeId} {name : String} {kind : BindingKind} {pos : Position} (inLoop : Bool)
    (hk : k ≤ s) (hs : s < n.scopes.size) (hparam : kind ≠ .param) (hself : kind ≠ .self) (declared : R name) :
    Step Q R k n (n.addLexical s name kind pos inLoop)
  | addParam {n : Names} {f : FuncId} {name : String} {pos : Position} (hk : k ≤ (n.function f).scope)
    (hf : f < n.functions.size) (named : Q name)
    (hself : ∀ b, n.lookup (n.function f).scope name = some b → (n.binding b).kind ≠ .self)
    (declared : R name) : Step Q R k n (n.addParam (n.function f).scope f name pos)
  | addSelf {n : Names} {f : FuncId} {pos : Position} (hk : k ≤ (n.function f).scope) (hf : f < n.functions.size)
    (hnone : n.lookup (n.function f).scope (n.function f).name = none)
    (hx : (n.function f).isExpression = true) (hname : (n.function f).name ≠ "")
    (declared : R (n.function f).name) :
    Step Q R k n (n.addSelf (n.function f).scope (n.function f).name pos)
  | openBlock {n : Names} {s : ScopeId} (hs : s < n.scopes.size) : Step Q R k n (n.openBlock s).1
  | addFunction {n : Names} {s : ScopeId} (name : String) (isExpression : Bool) (hs : s < n.scopes.size) :
    Step Q R k n (n.addFunction s name isExpression)
  | markParams {n : Names} (f : FuncId) (g : Formal → Formal) (hg : ∀ x, (g x).name = x.name) :
    Step Q R k n (n.modifyFunction f fun x => { x with params := x.params.map g })

/-- Steps one after another. -/
abbrev Steps (Q R : String → Prop) (k : ScopeId) : Names → Names → Prop := Relation.ReflTransGen (Step Q R k)

section

variable {Q R R' : String → Prop} {k k' : ScopeId} {n n' : Names}

theorem Step.mono (h : ∀ x, R x → R' x) (hle : k' ≤ k) (hs : Step Q R k n n') : Step Q R' k' n n' := by
  cases hs with
  | reserve name reserved => exact .reserve name reserved
  | assign name => exact .assign name
  | useArguments f => exact .useArguments f
  | pin b captured isLocal lasting => exact .pin b captured isLocal lasting
  | declare hk hs hparam hself declared => exact .declare (Nat.le_trans hle hk) hs hparam hself (h _ declared)
  | addLexical inLoop hk hs hparam hself declared =>
    exact .addLexical inLoop (Nat.le_trans hle hk) hs hparam hself (h _ declared)
  | addParam hk hf named hself declared => exact .addParam (Nat.le_trans hle hk) hf named hself (h _ declared)
  | addSelf hk hf hnone hx hname declared =>
    exact .addSelf (Nat.le_trans hle hk) hf hnone hx hname (h _ declared)
  | openBlock hs => exact .openBlock hs
  | addFunction name isExpression hs => exact .addFunction name isExpression hs
  | markParams f g hg => exact .markParams f g hg

theorem Steps.mono (h : ∀ x, R x → R' x) (hle : k' ≤ k) (hs : Steps Q R k n n') : Steps Q R' k' n n' :=
  Relation.ReflTransGen.mono (fun _ _ => Step.mono h hle) _ _ hs

end

/-! ## Scopes in order -/

/-- The scopes and bindings of a script are in order. -/
structure Scoped (n : Names) : Prop where
  owner_lt : ∀ {s}, s < n.scopes.size → (n.scope s).owner < n.functions.size
  scope_lt : ∀ {f}, f < n.functions.size → (n.function f).scope < n.scopes.size
  owner_scope : ∀ {f}, f < n.functions.size → (n.scope (n.function f).scope).owner = f
  isFunction_iff : ∀ {s}, s < n.scopes.size →
    ((n.scope s).isFunction = true ↔ s = (n.function (n.scope s).owner).scope)
  /-- A block stands in a scope of its function. -/
  block_outer : ∀ {s}, s < n.scopes.size → (n.scope s).isFunction = false →
    ∃ t, t < s ∧ (n.scope t).owner = (n.scope s).owner ∧ (n.scope s).outer = n.chain t
  /-- A function stands in a scope of the function around it. -/
  function_outer : ∀ {f g}, f < n.functions.size → (n.function f).parent = some g →
    ∃ t, t < (n.function f).scope ∧ (n.scope t).owner = g ∧
      (n.scope (n.function f).scope).outer = n.chain t
  top_outer : ∀ {f}, f < n.functions.size → (n.function f).parent = none →
    (n.scope (n.function f).scope).outer = []
  parent_lt : ∀ {f g}, f < n.functions.size → (n.function f).parent = some g → g < f
  mem_bindings : ∀ {s b}, b ∈ (n.scope s).bindings ↔ b < n.bindings.size ∧ (n.binding b).scope = s
  binding_scope_lt : ∀ {b}, b < n.bindings.size → (n.binding b).scope < n.scopes.size
  nodup : ∀ s, (n.scope s).bindings.Nodup
  name_inj : ∀ {b c}, b < n.bindings.size → c < n.bindings.size →
    (n.binding b).scope = (n.binding c).scope → (n.binding b).name = (n.binding c).name → b = c

variable {n}

theorem Spells.mono {n n' : Names} (h : ∀ x, x ∈ n.reserved → x ∈ n'.reserved)
    (hs : n.Spells name) : n'.Spells name := hs.imp id (h name)

/-- What looking a name up in a scope gives. -/
theorem Scoped.lookup_eq_some (h : n.Scoped) : n.lookup s name = some b ↔
      b < n.bindings.size ∧ (n.binding b).scope = s ∧ (n.binding b).name = name := by
  unfold lookup
  constructor
  · intro hb
    have hmem := h.mem_bindings.mp (List.mem_of_find?_eq_some hb)
    have hname := List.find?_some hb
    exact ⟨hmem.1, hmem.2, by simpa using hname⟩
  · rintro ⟨hb, rfl, rfl⟩
    have hmem : b ∈ (n.scope (n.binding b).scope).bindings := h.mem_bindings.mpr ⟨hb, rfl⟩
    cases hfind : (n.scope (n.binding b).scope).bindings.find? fun c =>
        (n.binding c).name == (n.binding b).name with
    | none => exact absurd (List.find?_eq_none.mp hfind b hmem) (by simp)
    | some c =>
      obtain ⟨hc, hscope⟩ := h.mem_bindings.mp (List.mem_of_find?_eq_some hfind)
      have hname := List.find?_some hfind
      rw [h.name_inj hc hb hscope (by simpa using hname)]

/-- Names that differ only in marks of bindings and functions. -/
structure Remarks (n n' : Names) : Prop where
  scopes : n'.scopes = n.scopes
  bindings_size : n'.bindings.size = n.bindings.size
  functions_size : n'.functions.size = n.functions.size
  name : ∀ b, (n'.binding b).name = (n.binding b).name
  scope_eq : ∀ b, (n'.binding b).scope = (n.binding b).scope
  parent : ∀ f, (n'.function f).parent = (n.function f).parent
  function_scope : ∀ f, (n'.function f).scope = (n.function f).scope

namespace Remarks

theorem modifyBinding (b : BindingId) {f : Binding → Binding} (hname : ∀ x, (f x).name = x.name)
    (hscope : ∀ x, (f x).scope = x.scope) : n.Remarks (n.modifyBinding b f) where
  scopes := rfl
  bindings_size := n.bindings_size_modifyBinding b f
  functions_size := rfl
  name := n.binding_modifyBinding_congr Binding.name hname b
  scope_eq := n.binding_modifyBinding_congr Binding.scope hscope b
  parent _ := rfl
  function_scope _ := rfl

theorem modifyFunction (f : FuncId) {h : Signature → Signature} (hparent : ∀ x, (h x).parent = x.parent)
    (hscope : ∀ x, (h x).scope = x.scope) : n.Remarks (n.modifyFunction f h) where
  scopes := rfl
  bindings_size := rfl
  functions_size := n.functions_size_modifyFunction f h
  name _ := rfl
  scope_eq _ := rfl
  parent := n.function_modifyFunction_congr Signature.parent hparent f
  function_scope := n.function_modifyFunction_congr Signature.scope hscope f

variable {n' : Names}

theorem scope (h : n.Remarks n') (s : ScopeId) : n'.scope s = n.scope s := by
  rw [Names.scope, h.scopes]
  rfl

theorem chain (h : n.Remarks n') (s : ScopeId) : n'.chain s = n.chain s := by
  rw [Names.chain, h.scope]
  rfl

theorem lookup (h : n.Remarks n') (s : ScopeId) (name : String) : n'.lookup s name = n.lookup s name := by
  simp only [Names.lookup, h.scope, h.name]

end Remarks

namespace Scoped

variable {n' : Names}

theorem of_remarks (h : n.Scoped) (hr : n.Remarks n') : n'.Scoped where
  owner_lt := by
    intro s hs
    rw [hr.scopes] at hs
    rw [hr.scope, hr.functions_size]
    exact h.owner_lt hs
  scope_lt := by
    intro f hf
    rw [hr.functions_size] at hf
    rw [hr.scopes, hr.function_scope]
    exact h.scope_lt hf
  owner_scope := by
    intro f hf
    rw [hr.functions_size] at hf
    rw [hr.scope, hr.function_scope]
    exact h.owner_scope hf
  isFunction_iff := by
    intro s hs
    rw [hr.scopes] at hs
    rw [hr.scope, hr.function_scope]
    exact h.isFunction_iff hs
  block_outer := by
    intro s hs
    rw [hr.scopes] at hs
    simp only [hr.scope, hr.chain]
    exact h.block_outer hs
  function_outer := by
    intro f g hf
    rw [hr.functions_size] at hf
    simp only [hr.scope, hr.chain, hr.parent, hr.function_scope]
    exact h.function_outer hf
  top_outer := by
    intro f hf
    rw [hr.functions_size] at hf
    simp only [hr.scope, hr.parent, hr.function_scope]
    exact h.top_outer hf
  parent_lt := by
    intro f g hf
    rw [hr.functions_size] at hf
    rw [hr.parent]
    exact h.parent_lt hf
  mem_bindings := by
    intro s b
    rw [hr.scope, hr.scope_eq, hr.bindings_size]
    exact h.mem_bindings
  binding_scope_lt := by
    intro b hb
    rw [hr.bindings_size] at hb
    rw [hr.scopes, hr.scope_eq]
    exact h.binding_scope_lt hb
  nodup s := by
    rw [hr.scope]
    exact h.nodup s
  name_inj := by
    intro b c hb hc
    rw [hr.bindings_size] at hb hc
    simp only [hr.scope_eq, hr.name]
    exact h.name_inj hb hc

theorem binding_ne (h : n.Scoped) (hnone : n.lookup s name = none)
    (hb : b < n.bindings.size) (hs : (n.binding b).scope = s) : (n.binding b).name ≠ name:= by
  intro hname
  rw [h.lookup_eq_some.mpr ⟨hb, hs, hname⟩] at hnone
  cases hnone

theorem addBinding (h : n.Scoped) {x : Binding} (hs : s < n.scopes.size) (hx : x.scope = s)
    (hnone : n.lookup s x.name = none) : (n.addBinding s x).Scoped := by
  have howner (t : ScopeId) : ((n.addBinding s x).scope t).owner = (n.scope t).owner := by
    rw [scope_addBinding]
    split <;> rfl
  have hisFunction (t : ScopeId) : ((n.addBinding s x).scope t).isFunction = (n.scope t).isFunction := by
    rw [scope_addBinding]
    split <;> rfl
  have houter (t : ScopeId) : ((n.addBinding s x).scope t).outer = (n.scope t).outer := by
    rw [scope_addBinding]
    split <;> rfl
  have hchain (t : ScopeId) : (n.addBinding s x).chain t = n.chain t := by rw [chain, houter]; rfl
  have hfunction (f : FuncId) : (n.addBinding s x).function f = n.function f := rfl
  have hlt {s b : Nat} (hb : b ∈ (n.scope s).bindings) : b < n.bindings.size := (h.mem_bindings.mp hb).1
  constructor
  case mem_bindings =>
    intro t b
    have := h.mem_bindings (s := t) (b := b)
    rw [scope_addBinding, binding_addBinding, bindings_size_addBinding]
    grind
  case binding_scope_lt =>
    intro b hb
    have := h.binding_scope_lt (b := b)
    rw [binding_addBinding, scopes_size_addBinding]
    rw [bindings_size_addBinding] at hb
    grind
  case nodup =>
    intro t
    have := h.nodup t
    rw [scope_addBinding]
    grind
  case name_inj =>
    intro b c hb hc
    rw [bindings_size_addBinding] at hb hc
    rw [binding_addBinding, binding_addBinding]
    have hb' := fun hb : b < n.bindings.size => h.binding_ne hnone hb
    have hc' := fun hc : c < n.bindings.size => h.binding_ne hnone hc
    have := h.name_inj (b := b) (c := c)
    grind
  all_goals
    simp only [scopes_size_addBinding, functions_addBinding, hisFunction, howner, houter, hchain, hfunction]
    cases h
    assumption

theorem declare (h : n.Scoped) (hs : s < n.scopes.size) (name : String) (kind : BindingKind)
    (pos : Position) : (n.declare s name kind pos).1.Scoped := by
  cases hb : n.lookup s name with
  | some b =>
    rw [n.declare_of_some hb]
    dsimp only
    split
    · exact h.of_remarks (.modifyBinding b (fun _ => rfl) fun _ => rfl)
    · exact h
  | none =>
    rw [n.declare_of_none hb]
    exact h.addBinding hs rfl hb

/-- A new scope, and with it at most one function, inside another scope. -/
theorem addScope (h : n.Scoped) {x : Scope} (hs : s < n.scopes.size)
    (hscope : ∀ t, n'.scope t = if t = n.scopes.size then x else n.scope t)
    (hsize : n'.scopes.size = n.scopes.size + 1) (hbindings : n'.bindings = n.bindings)
    (hle : n.functions.size ≤ n'.functions.size) (hempty : x.bindings = []) (houter : x.outer = n.chain s)
    (hfunction : ∀ {f}, f < n.functions.size → n'.function f = n.function f)
    (howner : x.owner < n'.functions.size)
    (hblock : x.isFunction = false → x.owner = (n.scope s).owner)
    (hisFunction : x.isFunction = true ↔ n.scopes.size = (n'.function x.owner).scope)
    (hnew : ∀ {f}, f < n'.functions.size → n.functions.size ≤ f → x.owner = f ∧
      (n'.function f).scope = n.scopes.size ∧ (n'.function f).parent = some (n.scope s).owner) : n'.Scoped := by
  have hold {t : ScopeId} (ht : t < n.scopes.size) : n'.scope t = n.scope t := by
    rw [hscope, if_neg (Nat.ne_of_lt ht)]
  have hlast : n'.scope n.scopes.size = x := by rw [hscope, if_pos rfl]
  have hchain {t : ScopeId} (ht : t < n.scopes.size) : n'.chain t = n.chain t := by
    rw [chain, hold ht]
    rfl
  have hbinding (b : BindingId) : n'.binding b = n.binding b := by
    rw [binding, hbindings]
    rfl
  have hcases {t : ScopeId} (ht : t < n'.scopes.size) : t < n.scopes.size ∨ t = n.scopes.size :=
    Nat.lt_succ_iff_lt_or_eq.mp (Nat.lt_of_lt_of_eq ht hsize)
  -- What a scope or a function stands in was there before it.
  have hinside {f : FuncId} {t : ScopeId} {l : List ScopeId} (ht : t < n.scopes.size)
      (h : ∃ u < t, (n.scope u).owner = f ∧ l = n.chain u) : ∃ u < t, (n'.scope u).owner = f ∧ l = n'.chain u := by
    obtain ⟨u, hu, howner, hl⟩ := h
    have hlt := Nat.lt_trans hu ht
    exact ⟨u, hu, by rw [hold hlt, howner], by rw [hchain hlt, hl]⟩
  constructor
  case owner_lt =>
    intro t ht
    rcases hcases ht with ht | rfl
    · rw [hold ht]
      exact Nat.lt_of_lt_of_le (h.owner_lt ht) hle
    · rwa [hlast]
  case scope_lt =>
    intro f hf
    rw [hsize]
    rcases Nat.lt_or_ge f n.functions.size with hlt | hge
    · rw [hfunction hlt]
      exact Nat.lt_succ_of_lt (h.scope_lt hlt)
    · rw [(hnew hf hge).2.1]
      exact Nat.lt_succ_self _
  case owner_scope =>
    intro f hf
    rcases Nat.lt_or_ge f n.functions.size with hlt | hge
    · rw [hfunction hlt, hold (h.scope_lt hlt)]
      exact h.owner_scope hlt
    · rw [(hnew hf hge).2.1, hlast, (hnew hf hge).1]
  case isFunction_iff =>
    intro t ht
    rcases hcases ht with ht | rfl
    · rw [hold ht, hfunction (h.owner_lt ht)]
      exact h.isFunction_iff ht
    · rwa [hlast]
  case block_outer =>
    intro t ht hb
    rcases hcases ht with ht | rfl
    · rw [hold ht] at hb ⊢
      exact hinside ht (h.block_outer ht hb)
    · rw [hlast] at hb ⊢
      exact ⟨s, hs, by rw [hold hs, hblock hb], by rw [hchain hs, houter]⟩
  case function_outer =>
    intro f g hf hparent
    rcases Nat.lt_or_ge f n.functions.size with hlt | hge
    · rw [hfunction hlt] at hparent ⊢
      rw [hold (h.scope_lt hlt)]
      exact hinside (h.scope_lt hlt) (h.function_outer hlt hparent)
    · obtain ⟨-, hscope, hsome⟩ := hnew hf hge
      rw [hsome] at hparent
      cases hparent
      rw [hscope, hlast]
      exact ⟨s, hs, by rw [hold hs], by rw [hchain hs, houter]⟩
  case top_outer =>
    intro f hf hparent
    rcases Nat.lt_or_ge f n.functions.size with hlt | hge
    · rw [hfunction hlt] at hparent ⊢
      rw [hold (h.scope_lt hlt)]
      exact h.top_outer hlt hparent
    · rw [(hnew hf hge).2.2] at hparent
      cases hparent
  case parent_lt =>
    intro f g hf hparent
    rcases Nat.lt_or_ge f n.functions.size with hlt | hge
    · rw [hfunction hlt] at hparent
      exact h.parent_lt hlt hparent
    · rw [(hnew hf hge).2.2] at hparent
      cases hparent
      exact Nat.lt_of_lt_of_le (h.owner_lt hs) hge
  case mem_bindings =>
    intro t b
    have := h.mem_bindings (s := t) (b := b)
    have := h.binding_scope_lt (b := b)
    rw [hscope, hbinding, hbindings]
    grind
  case binding_scope_lt =>
    intro b hb
    rw [hbindings] at hb
    rw [hsize, hbinding]
    exact Nat.lt_succ_of_lt (h.binding_scope_lt hb)
  case nodup =>
    intro t
    have := h.nodup t
    rw [hscope]
    grind
  case name_inj =>
    intro b c
    simp only [hbinding, hbindings]
    exact h.name_inj

/-- A new scope of a function, inside another one. -/
theorem openBlock (h : n.Scoped) (hs : s < n.scopes.size) : (n.openBlock s).1.Scoped := by
  refine h.addScope hs (n.scope_openBlock s) (n.scopes_size_addScope _) rfl (Nat.le_refl _) rfl rfl (fun _ => rfl)
    (h.owner_lt hs) (fun _ => rfl) ⟨nofun, fun heq => ?_⟩ fun hlt hge => absurd hlt (Nat.not_lt_of_le hge)
  exact absurd (h.scope_lt (h.owner_lt hs)) (Nat.not_lt_of_le (Nat.le_of_eq heq))

/-- A new function inside a scope. -/
theorem addFunction (h : n.Scoped) (hs : s < n.scopes.size) (name : String)
    (isExpression : Bool) : (n.addFunction s name isExpression).Scoped := by
  have hfunction (f : FuncId) := n.function_addFunction s name isExpression f
  have hsize : (n.addFunction s name isExpression).functions.size = n.functions.size + 1 :=
    (n.addScope _).functions_size_addSignature _
  refine h.addScope hs (fun t => n.scope_addFunction s t name isExpression) (n.scopes_size_addScope _) rfl
    (hsize ▸ Nat.le_succ _) rfl rfl (fun hf => by rw [hfunction, if_neg (Nat.ne_of_lt hf)])
    (hsize ▸ Nat.lt_succ_self _) nofun ⟨fun _ => by rw [hfunction, if_pos rfl], fun _ => rfl⟩ fun {f} hlt hge => ?_
  obtain rfl : f = n.functions.size := Nat.le_antisymm (Nat.le_of_lt_succ (Nat.lt_of_lt_of_eq hlt hsize)) hge
  rw [hfunction, if_pos rfl]
  exact ⟨rfl, rfl, rfl⟩

/-- Every step keeps the scopes in order. -/
theorem step (h : n.Scoped) {Q R : String → Prop} {k : ScopeId} (hs : Step Q R k n n') : n'.Scoped := by
  cases hs with
  | reserve name =>
    unfold Names.reserve
    split
    · exact h
    · exact h.of_remarks ⟨rfl, rfl, rfl, fun _ => rfl, fun _ => rfl, fun _ => rfl, fun _ => rfl⟩
  | assign name => exact h.of_remarks ⟨rfl, rfl, rfl, fun _ => rfl, fun _ => rfl, fun _ => rfl, fun _ => rfl⟩
  | useArguments f | markParams f => exact h.of_remarks (.modifyFunction f (fun _ => rfl) fun _ => rfl)
  | pin b => exact h.of_remarks (.modifyBinding b (fun _ => rfl) fun _ => rfl)
  | declare hk hs => exact h.declare hs _ _ _
  | addLexical inLoop hk hs => exact (h.declare hs _ _ _).of_remarks (.modifyBinding _ (fun _ => rfl) fun _ => rfl)
  | addParam hk hf =>
    refine Scoped.of_remarks ?_ (.modifyFunction _ (fun _ => rfl) fun _ => rfl)
    exact (h.declare (h.scope_lt hf) _ _ _).of_remarks (.modifyBinding _ (fun _ => rfl) fun _ => rfl)
  | addSelf hk hf =>
    exact (h.declare (h.scope_lt hf) _ _ _).of_remarks (.modifyBinding _ (fun _ => rfl) fun _ => rfl)
  | openBlock hs => exact h.openBlock hs
  | addFunction name isExpression hs => exact h.addFunction hs name isExpression

theorem steps (h : n.Scoped) {Q R : String → Prop} {k : ScopeId} (hs : Steps Q R k n n') : n'.Scoped := by
  induction hs with
  | refl => exact h
  | tail _ hs ih => exact ih.step hs

end Scoped

end ScriptOptimizer.Names
