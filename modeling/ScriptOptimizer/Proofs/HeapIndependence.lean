import ScriptOptimizer.Optimize.CommonValues
import ScriptOptimizer.Optimize.Placement
import ScriptOptimizer.Proofs.Program
import ScriptOptimizer.Proofs.Trees

/-!
# Values that do not depend on the heap

Common values are reused across writes, and placement moves values across them, if they read no storage
that can be written. Whether this is sound is a question of what the operators read: arithmetic and
comparisons are functions of the values of their operands, but `in` reads the properties of its right
operand and `instanceof` the prototypes of its left one. The main statement says for which of the values
that the passes move the value is the same before and behind every write, deletion and call.
-/

namespace ScriptOptimizer.IR

variable {x : Operand} {v : Value} {op : BinaryOp}

/-- A value that a running script computes with. -/
inductive Datum where
  | primitive (value : Literal)
  | object (address : Nat)
  | function (address : Nat)
deriving DecidableEq, Inhabited

/-- Where a value is kept on the heap. -/
def Datum.address? : Datum → Option Nat
  | primitive _ => none
  | object a | function a => some a

/-- An object or a function: its own properties and its prototype. -/
structure Thing where
  own : List (Text × Datum) := []
  prototype : Option Nat := none
deriving DecidableEq, Inhabited

/-- The objects and functions of a running script, by address. -/
abbrev Heap := List Thing

namespace Heap

/-- The object at an address. -/
def thing (h : Heap) (a : Nat) : Thing := h.getD a {}

/-- The first addresses of the chain of prototypes that starts at one. -/
def lineage (h : Heap) : Nat → Nat → List Nat
  | 0, _ => []
  | n + 1, a => a :: ((h.thing a).prototype.elim [] (h.lineage n))

/-- The chain of prototypes above an object; without a cycle it is no longer than the heap. -/
def ancestors (h : Heap) (a : Nat) : List Nat :=
  (h.thing a).prototype.elim [] (h.lineage h.length)

/-- Whether an object or one of its prototypes has a property. -/
def has (h : Heap) (a : Nat) (key : Text) : Bool :=
  (a :: h.ancestors a).any fun a => ((h.thing a).own.lookup key).isSome

/-- The value of a property, from the first object of the chain that has it. -/
def get? (h : Heap) (a : Nat) (key : Text) : Option Datum :=
  (a :: h.ancestors a).findSome? fun a => (h.thing a).own.lookup key

/-- Writes a property. -/
def write (h : Heap) (a : Nat) (key : Text) (value : Datum) : Heap :=
  h.modify a fun x => { x with own := Lowering.setEntry key value x.own }

/-- Deletes a property. -/
def erase (h : Heap) (a : Nat) (key : Text) : Heap :=
  h.modify a fun x => { x with own := x.own.filter (·.1 ≠ key) }

end Heap

/-- What a function of a running script can read. -/
structure Memory where
  temps : TempId → Datum
  /-- Locals that nothing else can write. -/
  locals : String → Datum
  /-- Locals that another function may write. -/
  captured : String → Datum
  globals : String → Datum
  receiver : Datum
  arguments : Datum
  heap : Heap

/-- The meaning of what is left open: arithmetic and comparisons are functions of the values of their
operands and fail with `none`, closures and source text give something new, and so may other values. -/
structure Operators where
  unary : UnaryOp → Datum → Option Datum
  binary : BinaryOp → Datum → Datum → Option Datum
  /-- The property name that an object converts to. -/
  name : Nat → Text
  fresh : Operand → Memory → Datum
  other : Value → Memory → Option Datum

/-- The property name that a value converts to. -/
def Operators.key (ops : Operators) : Datum → Text
  | .primitive v => v.toText
  | .object a | .function a => ops.name a

/-- The value of an operand. -/
def Operand.eval (ops : Operators) (m : Memory) : Operand → Datum
  | literal v => .primitive v
  | temp t => m.temps t
  | global name => m.globals name
  | named name pinned => if pinned then m.captured name else m.locals name
  | receiver => m.receiver
  | arguments => m.arguments
  | closure f => ops.fresh (closure f) m
  | raw text => ops.fresh (raw text) m

/-- Whether the right side has a property; only objects and functions have some. -/
def Heap.within (h : Heap) (ops : Operators) (l r : Datum) : Option Bool :=
  r.address?.map fun a => h.has a (ops.key l)

/-- Whether the left side descends from the prototype that a function gives to what it makes. -/
def Heap.instanceOf (h : Heap) : Datum → Datum → Option Bool
  | l, .function f =>
    match l.address? with
    | none => some false
    | some a => ((h.get? f (Text.ofString "prototype")).bind Datum.address?).map fun b =>
        (h.ancestors a).contains b
  | _, _ => none

/-- A truth value as a value of the script. -/
def Datum.ofBool (b : Bool) : Datum := .primitive (.bool b)

/-- The value of a computation, unless it fails. -/
def Value.eval (ops : Operators) (m : Memory) : Value → Option Datum
  | operand x => some (x.eval ops m)
  | unary op x => ops.unary op (x.eval ops m)
  | binary .within l r => (m.heap.within ops (l.eval ops m) (r.eval ops m)).map .ofBool
  | binary .instanceOf l r => (m.heap.instanceOf (l.eval ops m) (r.eval ops m)).map .ofBool
  | binary op l r => ops.binary op (l.eval ops m) (r.eval ops m)
  | member o k _ => (o.eval ops m).address?.map fun a =>
      (m.heap.get? a (ops.key (k.eval ops m))).getD (.primitive .undefined)
  | v => ops.other v m

/-- Two memories differ only in storage that other statements can write: merged temps, captured locals,
globals that are assigned somewhere, and the heap. -/
structure Settled (p : Program) (m m' : Memory) : Prop where
  temps : ∀ t, p.isMerge t = false → m'.temps t = m.temps t
  locals : m'.locals = m.locals
  globals : ∀ name, p.assigned.contains name = false → m'.globals name = m.globals name
  receiver : m'.receiver = m.receiver
  arguments : m'.arguments = m.arguments

/-- What statements with effects do to the memory. A call runs unknown code. -/
inductive Disturbs (ops : Operators) (p : Program) (m : Memory) : Action → Memory → Prop
  | write {o k x : Operand} {a : Nat} (ho : (o.eval ops m).address? = some a) :
    Disturbs ops p m (.setMember o k x)
      { m with heap := m.heap.write a (ops.key (k.eval ops m)) (x.eval ops m) }
  | delete {o k : Operand} {a : Nat} (ho : (o.eval ops m).address? = some a) :
    Disturbs ops p m (.eval (.delete o k)) { m with heap := m.heap.erase a (ops.key (k.eval ops m)) }
  | call {callee : Callee} {args : List Operand} {m' : Memory} (hm : Settled p m m') :
    Disturbs ops p m (.eval (.call callee args)) m'

/-- The value depends on nothing but the values of the operands. -/
def Value.DependsOnOperands (v : Value) : Prop :=
  ∀ ops m m', (∀ x ∈ v.operands, x.eval ops m' = x.eval ops m) → v.eval ops m' = v.eval ops m

/-- The value is the same before and behind every write, deletion and call. -/
def Value.Undisturbed (p : Program) (v : Value) : Prop :=
  ∀ ops m m' a, Disturbs ops p m a m' → v.eval ops m' = v.eval ops m

def Operand.isLiteral : Operand → Bool
  | literal _ => true
  | _ => false

/-- Whether a value reads more than operands that stay as they are: `in` reads the properties of its right
operand and `instanceof` the prototypes of its left one, unless a literal there decides the outcome. -/
def Value.readsHeap : Value → Bool
  | operand x => x.isFresh
  | unary _ x => x.isFresh
  | binary .within _ r => !r.isLiteral
  | binary .instanceOf l r => !r.isLiteral && (!l.isLiteral || r.isFresh)
  | binary _ l r => l.isFresh || r.isFresh
  | _ => true

/-- Whether a pass may take a value for one that can be computed at any time. -/
def Value.TakenAsLasting (p : Program) (v : Value) : Prop :=
  (∃ k, CommonValues.key? p v = some (k, false)) ∨ Placing.isIndependent p v = true

section Stable

variable {p : Program} {m m' : Memory} {ops : Operators}

theorem Disturbs.settled {a : Action} (h : Disturbs ops p m a m') : Settled p m m' := by
  cases h with
  | write | delete => exact ⟨fun _ _ => rfl, rfl, fun _ _ => rfl, rfl, rfl⟩
  | call hm => exact hm

/-- An operand that is not volatile keeps its value, unless it makes something new. -/
theorem Operand.eval_settled (hs : Settled p m m') (hx : p.isVolatile x = false)
    (hf : x.isFresh = false) : x.eval ops m' = x.eval ops m := by
  cases x with
  | literal v => rfl
  | temp t => exact hs.temps t hx
  | global name => exact hs.globals name hx
  | named name pinned =>
    obtain rfl : pinned = false := hx
    exact congrFun hs.locals name
  | receiver => exact hs.receiver
  | arguments => exact hs.arguments
  | closure f => cases hf
  | raw text => cases hf

/-- Nothing on the heap decides whether a literal descends from a function. -/
theorem Heap.instanceOf_literal_left (h h' : Heap) (v : Literal) (r : Datum) :
    h'.instanceOf (.primitive v) r = h.instanceOf (.primitive v) r := by
  cases r <;> rfl

theorem Operand.isLiteral_iff : x.isLiteral = true ↔ ∃ v, x = .literal v := by
  cases x <;> simp [isLiteral]

/-- Other operators than `in` and `instanceof` only see the values of their operands. -/
theorem Value.eval_binary (hw : op ≠ .within) (hi : op ≠ .instanceOf) (l r : Operand) :
    (Value.binary op l r).eval ops m = ops.binary op (l.eval ops m) (r.eval ops m) := by
  cases op <;> first | rfl | contradiction

theorem Value.readsHeap_binary (hw : op ≠ .within) (hi : op ≠ .instanceOf)
    (l r : Operand) : (Value.binary op l r).readsHeap = (l.isFresh || r.isFresh) := by
  cases op <;> first | rfl | contradiction

end Stable

/-- An operand that can be read later with the same result is neither volatile nor new. -/
theorem isVolatile_of_isIndependentOperand {p : Program}
    (h : Placing.isIndependentOperand p x = true) : p.isVolatile x = false ∧ x.isFresh = false := by
  cases x with
  | literal | receiver | arguments => exact ⟨rfl, rfl⟩
  | temp t =>
    simp only [Placing.isIndependentOperand, Bool.and_eq_true, Bool.not_eq_true'] at h
    exact ⟨h.1, rfl⟩
  | global name | named name pinned =>
    simp only [Placing.isIndependentOperand, Bool.not_eq_true'] at h
    exact ⟨h, rfl⟩
  | closure | raw => cases h

/-- The values that passes take for lasting are operands and operations on operands, none of which is
volatile. -/
theorem Value.TakenAsLasting.cases {p : Program} (h : v.TakenAsLasting p) :
    (∃ x, v = .operand x ∧ p.isVolatile x = false ∧ x.isFresh = false) ∨
    (∃ op x, v = .unary op x ∧ p.isVolatile x = false) ∨
    (∃ op l r, v = .binary op l r ∧ p.isVolatile l = false ∧ p.isVolatile r = false) := by
  obtain ⟨k, hk⟩ | hi := h
  · cases v with
    | unary op x =>
      simp only [CommonValues.key?, Option.some.injEq, Prod.mk.injEq] at hk
      exact .inr (.inl ⟨op, x, rfl, hk.2⟩)
    | binary op l r =>
      simp only [CommonValues.key?, Option.some.injEq, Prod.mk.injEq, Bool.or_eq_false_iff] at hk
      exact .inr (.inr ⟨op, l, r, rfl, hk.2⟩)
    | member => simp [CommonValues.key?] at hk
    | _ => cases hk
  · cases v with
    | operand x => exact .inl ⟨x, rfl, isVolatile_of_isIndependentOperand hi⟩
    | unary op x => exact .inr (.inl ⟨op, x, rfl, (isVolatile_of_isIndependentOperand hi).1⟩)
    | binary op l r =>
      simp only [Placing.isIndependent, Bool.and_eq_true] at hi
      exact .inr (.inr ⟨op, l, r, rfl, (isVolatile_of_isIndependentOperand hi.1).1,
        (isVolatile_of_isIndependentOperand hi.2).1⟩)
    | member | call | object | array | merge | delete => cases hi

/-- A value that reads nothing but its operands is determined by them. -/
theorem Value.dependsOnOperands_of_readsHeap (hv : v.readsHeap = false) : v.DependsOnOperands:= by
  intro ops m m' hx
  cases v with
  | operand x => exact congrArg some (hx x (by simp [operands]))
  | unary op x => exact congrArg (ops.unary op) (hx x (by simp [operands]))
  | binary op l r =>
    have hl : l.eval ops m' = l.eval ops m := hx l (by simp [operands])
    have hr : r.eval ops m' = r.eval ops m := hx r (by simp [operands])
    by_cases hw : op = .within
    · subst hw
      simp only [readsHeap, Bool.not_eq_false', Operand.isLiteral_iff] at hv
      obtain ⟨w, rfl⟩ := hv
      rfl
    by_cases hi : op = .instanceOf
    · subst hi
      simp only [readsHeap, Bool.and_eq_false_iff, Bool.not_eq_false', Bool.or_eq_false_iff,
        Operand.isLiteral_iff] at hv
      obtain ⟨w, rfl⟩ | ⟨⟨w, rfl⟩, -⟩ := hv
      · rfl
      · simp only [eval, hr]
        exact congrArg _ (Heap.instanceOf_literal_left ..)
    · rw [eval_binary hw hi, eval_binary hw hi, hl, hr]
  | member | call | object | array | merge | delete => cases hv

/-- A value that reads nothing but operands that stay as they are stays as it is. -/
theorem Value.TakenAsLasting.undisturbed {p : Program} (h : v.TakenAsLasting p)
    (hv : v.readsHeap = false) : v.Undisturbed p := by
  intro ops m m' a ha
  have hs := ha.settled
  obtain ⟨x, rfl, hx, hf⟩ | ⟨op, x, rfl, hx⟩ | ⟨op, l, r, rfl, hl, hr⟩ := h.cases
  · exact congrArg some (Operand.eval_settled hs hx hf)
  · exact congrArg (ops.unary op) (Operand.eval_settled hs hx hv)
  · by_cases hw : op = .within
    · subst hw
      simp only [readsHeap, Bool.not_eq_false', Operand.isLiteral_iff] at hv
      obtain ⟨w, rfl⟩ := hv
      rfl
    by_cases hi : op = .instanceOf
    · subst hi
      simp only [readsHeap, Bool.and_eq_false_iff, Bool.not_eq_false', Bool.or_eq_false_iff,
        Operand.isLiteral_iff] at hv
      obtain ⟨w, rfl⟩ | ⟨⟨w, rfl⟩, hf⟩ := hv
      · rfl
      · simp only [eval, Operand.eval_settled hs hr hf]
        exact congrArg _ (Heap.instanceOf_literal_left ..)
    · rw [readsHeap_binary hw hi, Bool.or_eq_false_iff] at hv
      rw [eval_binary hw hi, eval_binary hw hi, Operand.eval_settled hs hl hv.1,
        Operand.eval_settled hs hr hv.2]

/-- A memory that holds the same value everywhere. -/
def Memory.uniform (d : Datum) (heap : Heap) : Memory where
  temps _ := d
  locals _ := d
  captured _ := d
  globals _ := d
  receiver := d
  arguments := d
  heap := heap

theorem Operand.eval_uniform {ops : Operators} (d : Datum) (h : Heap)
    (hl : x.isLiteral = false) (hf : x.isFresh = false) : x.eval ops (.uniform d h) = d := by
  cases x with
  | named name pinned => cases pinned <;> rfl
  | literal => cases hl
  | closure | raw => cases hf
  | temp | global | receiver | arguments => rfl

theorem Operand.eval_fresh {ops : Operators} (m : Memory) (hf : x.isFresh = true) : x.eval ops m = ops.fresh x m:= by
  cases x with
  | closure | raw => rfl
  | literal | temp | global | named | receiver | arguments => cases hf

/-- A value that a change of the heap alone can change is disturbed by some call. -/
theorem Value.not_undisturbed {p : Program} (ops : Operators) (d : Datum) (h h' : Heap)
    (hne : v.eval ops (.uniform d h') ≠ v.eval ops (.uniform d h)) : ¬ v.Undisturbed p := by
  intro hu
  have hcall : Disturbs ops p (.uniform d h) (.eval (.call (.function .receiver) [])) (.uniform d h') :=
    .call ⟨fun _ _ => rfl, rfl, fun _ _ => rfl, rfl, rfl⟩
  exact hne (hu ops _ _ _ hcall)

/-- Operators that tell the function at address 0 from everything else. -/
def Operators.probing (fresh : Heap → Datum) : Operators where
  unary _ d := some d
  binary _ a b := some (.ofBool (decide (a = .function 0 ∨ b = .function 0)))
  name _ := []
  fresh _ m := fresh m.heap
  other _ _ := none

theorem Operators.binary_probing (fresh : Heap → Datum) (op : BinaryOp) (a b : Datum) :
    (Operators.probing fresh).binary op a b =
      some (.ofBool (decide (a = .function 0 ∨ b = .function 0))) := rfl

/-- A function at address 0 for a closure that is made first, and another value for each later one. -/
def Heap.firstClosure (h : Heap) : Datum := if h.isEmpty then .function 0 else .object 0

section Sensitive

variable {p : Program} {l r : Operand}

theorem Operand.eval_probing_ne {h : Heap} (hh : h.isEmpty = false) :
    x.eval (.probing Heap.firstClosure) (.uniform (.object 0) h) ≠ .function 0 := by
  have hfresh : h.firstClosure = .object 0 := by simp [Heap.firstClosure, hh]
  cases x with
  | named name pinned => cases pinned <;> simp [eval, Memory.uniform]
  | closure | raw => simp [eval, Operators.probing, Memory.uniform, hfresh]
  | literal | temp | global | receiver | arguments => simp [eval, Memory.uniform]

theorem Operand.eval_probing_of_isFresh (hx : x.isFresh = true) :
    x.eval (.probing Heap.firstClosure) (.uniform (.object 0) []) = .function 0 :=
  eval_fresh _ hx

theorem Value.not_undisturbed_unary {op : UnaryOp} (hx : x.isFresh = true) : ¬ (Value.unary op x).Undisturbed p:= by
  apply not_undisturbed (.probing Heap.firstClosure) (.object 0) [{}] []
  intro heq
  have hsame := Option.some.inj heq
  rw [Operand.eval_probing_of_isFresh hx] at hsame
  exact Operand.eval_probing_ne rfl hsame.symm

theorem Value.not_undisturbed_binary (hw : op ≠ .within) (hi : op ≠ .instanceOf)
    (hx : l.isFresh = true ∨ r.isFresh = true) : ¬ (Value.binary op l r).Undisturbed p := by
  apply not_undisturbed (.probing Heap.firstClosure) (.object 0) [{}] []
  rw [eval_binary hw hi, eval_binary hw hi, Operators.binary_probing, Operators.binary_probing]
  have hfirst := hx.imp Operand.eval_probing_of_isFresh Operand.eval_probing_of_isFresh
  have hl := Operand.eval_probing_ne (x := l) (h := [{}]) rfl
  have hr := Operand.eval_probing_ne (x := r) (h := [{}]) rfl
  rw [decide_eq_true hfirst, decide_eq_false (not_or.mpr ⟨hl, hr⟩)]
  decide

/-- With the same function everywhere, every operand but a literal is that function. -/
theorem Operand.eval_everywhere (h : Heap) (hx : x.isLiteral = false) :
    x.eval (.probing fun _ => .function 0) (.uniform (.function 0) h) = .function 0 := by
  by_cases hf : x.isFresh = true
  · exact eval_fresh _ hf
  · exact eval_uniform _ _ hx (by simpa using hf)

/-- With the same function everywhere, the heap does not matter for any operand. -/
theorem Operand.eval_everywhere_heap (x : Operand) (h : Heap) :
    x.eval (.probing fun _ => .function 0) (.uniform (.function 0) h) =
      x.eval (.probing fun _ => .function 0) (.uniform (.function 0) []) := by
  cases hx : x.isLiteral with
  | true =>
    obtain ⟨w, rfl⟩ := isLiteral_iff.mp hx
    rfl
  | false => rw [eval_everywhere h hx, eval_everywhere [] hx]

theorem Heap.within_singleton (ops : Operators) (props : List (Text × Datum)) (d : Datum) :
    Heap.within [{ own := props }] ops d (.function 0) = some (props.lookup (ops.key d)).isSome := by
  simp [Heap.within, Datum.address?, Heap.has, Heap.thing, Heap.ancestors]

/-- What `in` tests for is a property that the heap may have or not. -/
theorem Value.not_undisturbed_within (hr : r.isLiteral = false) :
    ¬ (Value.binary .within l r).Undisturbed p := by
  -- The property name does not depend on the heap, so a heap with this property can be chosen.
  let ops : Operators := .probing fun _ => .function 0
  let key := ops.key (l.eval ops (.uniform (.function 0) []))
  apply not_undisturbed ops (.function 0) [{}] [{ own := [(key, .object 0)] }]
  rw [eval, eval, Operand.eval_everywhere _ hr, Operand.eval_everywhere _ hr,
    Operand.eval_everywhere_heap l, Operand.eval_everywhere_heap l]
  simp only [Memory.uniform, Heap.within_singleton]
  simp [key, ops, Datum.ofBool, Memory.uniform]

/-- A function at address 0 that descends from the prototype it gives to what it makes. -/
def Heap.ownInstance : Heap := [{ own := [(Text.ofString "prototype", .object 1)], prototype := some 1 }, {}]

/-- What `instanceof` tests for is a prototype that the heap may have or not. -/
theorem Value.not_undisturbed_instanceOf (hl : l.isLiteral = false) (hr : r.isLiteral = false) :
    ¬ (Value.binary .instanceOf l r).Undisturbed p := by
  apply not_undisturbed (.probing fun _ => .function 0) (.function 0) [] Heap.ownInstance
  rw [eval, eval, Operand.eval_everywhere _ hl, Operand.eval_everywhere _ hl,
    Operand.eval_everywhere _ hr, Operand.eval_everywhere _ hr]
  decide

/-- A literal descends from nothing, but `instanceof` fails if the right side is no function. -/
theorem Value.not_undisturbed_instanceOf_fresh {w : Literal} (hr : r.isFresh = true) :
    ¬ (Value.binary .instanceOf (.literal w) r).Undisturbed p := by
  apply not_undisturbed (.probing Heap.firstClosure) (.object 0) [{}] []
  rw [eval, eval, Operand.eval_fresh _ hr, Operand.eval_fresh _ hr]
  exact Option.some_ne_none _

end Sensitive

/-- A value that passes take for lasting and that reads the heap can be disturbed. -/
theorem Value.TakenAsLasting.not_undisturbed {p : Program} (h : v.TakenAsLasting p)
    (hv : v.readsHeap = true) : ¬ v.Undisturbed p := by
  obtain ⟨x, rfl, -, hf⟩ | ⟨op, x, rfl, -⟩ | ⟨op, l, r, rfl, -, -⟩ := h.cases
  · rw [readsHeap, hf] at hv
    cases hv
  · exact not_undisturbed_unary hv
  · by_cases hw : op = .within
    · subst hw
      simp only [readsHeap, Bool.not_eq_true'] at hv
      exact not_undisturbed_within hv
    by_cases hi : op = .instanceOf
    · subst hi
      simp only [readsHeap, Bool.and_eq_true, Bool.or_eq_true, Bool.not_eq_true'] at hv
      cases hl : l.isLiteral with
      | true =>
        obtain ⟨w, rfl⟩ := Operand.isLiteral_iff.mp hl
        exact not_undisturbed_instanceOf_fresh (hv.2.resolve_left (by simp [hl]))
      | false => exact not_undisturbed_instanceOf hl hv.1
    · rw [readsHeap_binary hw hi, Bool.or_eq_true] at hv
      exact not_undisturbed_binary hw hi hv

/-- A value that a pass takes for one that can be computed at any time depends on its operands alone and is
the same before and behind every write, deletion and call exactly if it does not read the heap, that is,
if it is neither an `in` nor an `instanceof` whose outcome the heap decides, nor applied to something new. -/
theorem Value.TakenAsLasting.undisturbed_iff {p : Program} {v : Value} (h : v.TakenAsLasting p) :
    v.DependsOnOperands ∧ v.Undisturbed p ↔ v.readsHeap = false := by
  refine ⟨fun hd => ?_, fun hv => ⟨dependsOnOperands_of_readsHeap hv, h.undisturbed hv⟩⟩
  cases hv : v.readsHeap with
  | true => exact absurd hd.2 (h.not_undisturbed hv)
  | false => rfl

/-- A sum of a parameter and a literal lasts, a test for a property of a parameter does not. -/
theorem Value.TakenAsLasting.undisturbed_iff_parameter :
    let sum : Value := .binary .add (.named "o" false) (.literal (.bool true))
    let test : Value := .binary .within (.literal (.bool true)) (.named "o" false)
    sum.TakenAsLasting {} ∧ sum.DependsOnOperands ∧ sum.Undisturbed {} ∧
      test.TakenAsLasting {} ∧ ¬ (test.DependsOnOperands ∧ test.Undisturbed {}) := by
  intro sum test
  have hsum : sum.TakenAsLasting {} := .inr rfl
  have htest : test.TakenAsLasting {} := .inr rfl
  obtain ⟨hdep, hund⟩ := hsum.undisturbed_iff.mpr rfl
  refine ⟨hsum, hdep, hund, htest, fun h => ?_⟩
  have hfalse : test.readsHeap = false := htest.undisturbed_iff.mp h
  cases hfalse

/-- A function that tests for a property before and behind a write of it. -/
def membershipTests : String :=
  "function h(o) \x7b var a = 'x' in o; o.x = true; var b = 'x' in o; return [a, b]; \x7d"

/-- The second test is replaced by the first one, although the write between them changes its outcome. -/
theorem commonValues_membershipTests :
    ∃ x p v m m' ops, Script.parse "" membershipTests = .ok x ∧ x.lower = .ok p ∧ v.TakenAsLasting p ∧
      (p.stmt 2).action = .define ⟨1, 2⟩ v .undecided ∧
      (p.stmt 4).action = .define ⟨1, 3⟩ v .undecided ∧
      ((CommonValues.run p).stmt 4).action = .define ⟨1, 3⟩ (.operand (.temp ⟨1, 2⟩)) .undecided ∧
      Disturbs ops p m (p.stmt 3).action m' ∧ v.eval ops m' ≠ v.eval ops m := by
  let v : Value := .binary .within (.literal (.string (Text.ofString "x"))) (.named "o" false)
  let ops : Operators := .probing fun _ => .object 0
  let m : Memory := .uniform (.object 0) [{}]
  obtain ⟨x, p, hx, h, hp⟩ := Script.exists_lower membershipTests (fun _ p => Placing.isIndependent p v = true ∧
    (p.stmt 2).action = .define ⟨1, 2⟩ v .undecided ∧
    (p.stmt 3).action = .setMember (.named "o" false) (.literal (.string (Text.ofString "x")))
      (.literal (.bool true)) ∧
    (p.stmt 4).action = .define ⟨1, 3⟩ v .undecided ∧
    ((CommonValues.run p).stmt 4).action =
      .define ⟨1, 3⟩ (.operand (.temp ⟨1, 2⟩)) .undecided) (by decide +kernel)
  obtain ⟨hv, h2, h3, h4, hrun⟩ := of_decide_eq_true hp
  have hwrite : Disturbs ops p m (.setMember (.named "o" false)
      (.literal (.string (Text.ofString "x"))) (.literal (.bool true))) _ := .write (a := 0) rfl
  rw [← h3] at hwrite
  exact ⟨x, p, v, m, _, ops, hx, h, .inr hv, h2, h4, hrun, hwrite, by decide +kernel⟩

end ScriptOptimizer.IR
