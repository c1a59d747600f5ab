import ScriptOptimizer.Emission.Sequence
import ScriptOptimizer.Proofs.Hoisting

/-!
# Statements in the test of a loop

The statements that compute the test of a loop become expressions of one sequence. Evaluating these from
left to right does what executing the statements does, whatever an evaluation, an assignment and a choice
may do.
-/

namespace ScriptOptimizer

/-- What expressions do in a monad: the evaluation of an expression that holds no sequence, choice or plain
assignment of its own, and the steps that these are made of. -/
structure Machine (M : Type → Type) (V : Type) where
  leaf : Expr → M V
  assign : String → V → M Unit
  destructure : Expr → V → M Unit
  choose : V → M Bool
  undefined : V

namespace Machine

variable {M : Type → Type} [Monad M] {V : Type} (m : Machine M V)

mutual

/-- The evaluation of an expression. -/
def eval : Expr → M V
  | .sequence _ es => evalLast m.undefined es
  | .conditional _ test a b => do
    let v ← eval test
    if ← m.choose v then eval a else eval b
  | .assign _ .set (.ident _ x) e => do
    let v ← eval e
    m.assign x v
    return v
  | .literal _ .undefined => return m.undefined
  | e => m.leaf e

/-- The evaluation of expressions behind a value; the value is the last. -/
def evalLast (v : V) : List Expr → M V
  | [] => return v
  | e :: es => do evalLast (← eval e) es

end

/-- The evaluation of an expression for its effects. -/
def run (e : Expr) : M Unit := do
  let _ ← m.eval e

/-- The execution of one binding of a declaration. A variable without an initial value is left as it is. -/
def bind (kind : VarKind) (d : Declarator) : M Unit :=
  match d.init with
  | none => if kind = .var then pure () else m.assign d.name m.undefined
  | some e => do
    let v ← m.eval e
    match d.pattern with
    | none => m.assign d.name v
    | some p => m.destructure p v

mutual

/-- The execution of a statement. -/
def exec : Stmt → M Unit
  | .expr _ e => m.run e
  | .varDecl d => forM d.decls (m.bind d.kind)
  | .ifElse _ test a b => do
    let v ← m.eval test
    if ← m.choose v then exec a else execOption b
  | .block _ _ body => execAll body
  | _ => pure ()

/-- The execution of a statement that may be missing. -/
def execOption : Option Stmt → M Unit
  | none => pure ()
  | some s => exec s

/-- The execution of statements in order. -/
def execAll : List Stmt → M Unit
  | [] => pure ()
  | s :: ss => do
    exec s
    execAll ss

end

variable [LawfulMonad M]

/-- A sequence runs its expressions in order. -/
theorem evalLast_append (v : V) (es : List Expr) (e : Expr) :
    m.evalLast v (es ++ [e]) = forM es m.run >>= fun _ => m.eval e := by
  induction es generalizing v with
  | nil => simp [evalLast]
  | cons x es ih => simp [evalLast, run, ih]

theorem evalLast_forget (v : V) (es : List Expr) :
    (m.evalLast v es >>= fun _ => pure ()) = forM es m.run := by
  induction es generalizing v with
  | nil => simp [evalLast]
  | cons x es ih => simp only [evalLast, run, List.forM_cons, bind_assoc, pure_bind, ih]

theorem run_sequence (pos : Position) (es : List Expr) : m.run (.sequence pos es) = forM es m.run := by
  rw [run, eval, evalLast_forget]

end Machine

namespace Sequence

open Resolution (vars vars_eq hoistedVars)

/-- The statements that the test of a loop is made of: expressions, variables by name and branches, with blocks
around them. A branch may miss either arm. -/
inductive InTest : Stmt → Prop
  | expr (pos : Position) (e : Expr) : InTest (.expr pos e)
  | varDecl (d : VarDecl) (isVar : d.kind = .var) (named : ∀ x ∈ d.decls, x.pattern = none) :
    InTest (.varDecl d)
  | ifElse (pos : Position) (test : Expr) {a : Stmt} {b : Option Stmt} (first : InTest a)
    (second : ∀ s ∈ b, InTest s) : InTest (.ifElse pos test a b)
  | ifMissing (pos : Position) (test : Expr) {b : Option Stmt} (second : ∀ s ∈ b, InTest s) :
    InTest (.ifElse pos test .hole b)
  | block (pos : Position) (scope : Option Nat) {body : List Stmt} (all : ∀ s ∈ body, InTest s) :
    InTest (.block pos scope body)

/-- The names of variables that a statement declares. -/
def declared (s : Stmt) : List String := (vars s).map (·.name)

/-- Expressions that stand for the execution of statements, on every machine. -/
def Simulates (es : List Expr) (act : ∀ {M : Type → Type} [Monad M] {V : Type}, Machine M V → M Unit) : Prop :=
  ∀ {M : Type → Type} [Monad M] [LawfulMonad M] {V : Type} (m : Machine M V), forM es m.run = act m

/-- A statement becomes an expression that stands for it. -/
def Converts (s : Stmt) : Prop :=
  ∃ x, stmt s = .ok (x, declared s) ∧ Simulates x.toList fun m => m.exec s

section

variable {M : Type → Type} [Monad M] [LawfulMonad M] {V : Type} (m : Machine M V)

theorem run_ofList (es : List Expr) : forM (ofList es).toList m.run = forM es m.run := by
  rcases es with _ | ⟨e, _ | ⟨e', es⟩⟩
  · rfl
  · rfl
  · simp [ofList, m.run_sequence]

theorem run_value (x : Option Expr) : m.run (value x) = forM x.toList m.run := by
  cases x <;> simp [value, undefined, Machine.run, Machine.eval]

theorem run_conditional (test a b : Expr) :
    m.run (.conditional {} test a b) =
      m.eval test >>= fun v => m.choose v >>= fun c => if c then m.run a else m.run b := by
  simp only [Machine.run, Machine.eval, bind_assoc]
  congr; funext v; congr; funext c
  cases c <;> rfl

/-- The assignments of a declaration of variables are its execution. -/
theorem run_initializers {ds : List Declarator} (h : ∀ x ∈ ds, x.pattern = none) :
    forM (ds.filterMap initializer) m.run = forM ds (m.bind .var) := by
  induction ds with
  | nil => rfl
  | cons d ds ih =>
    have hd := h d List.mem_cons_self
    have hds := ih fun x hx => h x (List.mem_cons_of_mem _ hx)
    cases hi : d.init with
    | none => simp [initializer, Machine.bind, hi, hds]
    | some e => simp [initializer, Machine.bind, Machine.run, Machine.eval, hi, hd, hds]

end

theorem declared_ifElse (pos : Position) (test : Expr) (a : Stmt) (b : Option Stmt) :
    declared (.ifElse pos test a b) = declared a ++ b.toList.flatMap declared := by
  cases b <;> simp [declared, vars_eq (.ifElse ..), Stmt.decl?, Stmt.stmts]

theorem optStmt_converts {b : Option Stmt} (h : ∀ s ∈ b, Converts s) :
    ∃ x, optStmt b = .ok (x, b.toList.flatMap declared) ∧ Simulates x.toList fun m => m.execOption b := by
  cases b with
  | none => exact ⟨none, rfl, fun m => by simp [Machine.execOption]⟩
  | some s =>
    obtain ⟨x, hx, hrun⟩ := h s rfl
    exact ⟨x, by simp [optStmt, hx], fun m => by simp [Machine.execOption, hrun m]⟩

theorem list_converts {ss : List Stmt} (h : ∀ s ∈ ss, Converts s) :
    ∃ es, list ss = .ok (es, ss.flatMap declared) ∧ Simulates es fun m => m.execAll ss := by
  induction ss with
  | nil => exact ⟨[], rfl, fun m => by simp [Machine.execAll]⟩
  | cons s ss ih =>
    obtain ⟨x, hx, hrun⟩ := h s List.mem_cons_self
    obtain ⟨es, hes, hrest⟩ := ih fun t ht => h t (List.mem_cons_of_mem _ ht)
    refine ⟨x.toList ++ es, ?_, fun m => ?_⟩
    · simp [list, hx, hes, bind, Except.bind, pure, Except.pure]
    · simp [Machine.execAll, hrun m, hrest m]

theorem declared_block (pos : Position) (scope : Option Nat) (body : List Stmt) :
    declared (.block pos scope body) = body.flatMap declared := by
  simp [declared, vars_eq (.block ..), Stmt.decl?, Stmt.stmts, List.map_flatMap]
  rfl

attribute [local simp] bind Except.bind pure Except.pure in
theorem InTest.converts {s : Stmt} (h : InTest s) : Converts s := by
  induction h with
  | expr pos e =>
    refine ⟨some e, ?_, fun m => by simp [Machine.exec]⟩
    simp [stmt, declared, vars_eq (.expr ..), Stmt.decl?, Stmt.stmts]
  | varDecl d isVar named =>
    refine ⟨ofList (d.decls.filterMap initializer), ?_, fun m => ?_⟩
    · simp [stmt, declared, vars_eq (.varDecl d), Stmt.decl?, Stmt.stmts, hoistedVars, isVar]
    · rw [run_ofList, run_initializers m named, ← isVar]
      simp only [Machine.exec]
  | @ifElse pos test a b _ _ first second =>
    obtain ⟨x, hx, hfirst⟩ := first
    obtain ⟨y, hy, hsecond⟩ := optStmt_converts second
    have hole : a ≠ .hole := fun h => by simp [h, stmt] at hx
    refine ⟨some (.conditional {} test (value x) (value y)), ?_, fun m => ?_⟩
    · simp [stmt, hx, hy, declared_ifElse]
    · simp [run_conditional, run_value, hfirst m, hsecond m, Machine.exec]
  | @ifMissing pos test b _ second =>
    obtain ⟨y, hy, hsecond⟩ := optStmt_converts second
    refine ⟨some (.conditional {} test (value none) (value y)), ?_, fun m => ?_⟩
    · simp only [stmt, hy, declared_ifElse]
      rfl
    · simp [run_conditional, run_value, hsecond m, Machine.exec]
  | block pos scope _ all =>
    obtain ⟨es, hes, hrun⟩ := list_converts all
    refine ⟨some (value (ofList es)), ?_, fun m => ?_⟩
    · simp [stmt, hes, declared_block]
    · simp [run_value, run_ofList, hrun m, Machine.exec]

/-- The statements of a test become expressions, and the names are those that they declare, in order. On every
machine evaluating the expressions does what executing the statements does, also in front of the condition of
the loop. -/
theorem list_of_inTest {ss : List Stmt} (h : ∀ s ∈ ss, InTest s) :
    ∃ es, list ss = .ok (es, ss.flatMap declared) ∧
      ∀ {M : Type → Type} [Monad M] [LawfulMonad M] {V : Type} (m : Machine M V),
        forM es m.run = m.execAll ss ∧
          ∀ cond, m.eval (.sequence {} (es ++ [cond])) = m.execAll ss >>= fun _ => m.eval cond := by
  obtain ⟨es, hes, hrun⟩ := list_converts fun s hs => (h s hs).converts
  refine ⟨es, hes, fun m => ⟨hrun m, fun cond => ?_⟩⟩
  rw [Machine.eval, m.evalLast_append, hrun m]

/-- A branch without a first arm, behind one that declares a variable without an initial value. -/
theorem list_nestedBranches :
    let a : Expr := .ident {} "a"
    let b : Stmt := .varDecl ⟨{}, .var, [⟨{}, "b", none, none⟩, ⟨{}, "c", none, some a⟩]⟩
    let ss : List Stmt := [.ifElse {} a (.block {} none [b, .expr {} a]) none,
      .ifElse {} a .hole (some (.block {} none []))]
    ∃ es, list ss = .ok (es, ["b", "c"]) ∧
      ∀ (m : Machine (StateM (List String)) Bool), forM es m.run = m.execAll ss := by
  intro a b ss
  have hb : InTest b := .varDecl _ rfl (by simp)
  have first : InTest (.block {} none [b, .expr {} a]) := .block _ _ (by simp [hb, InTest.expr])
  have second : InTest (.block {} none []) := .block _ _ (by simp)
  have h : ∀ s ∈ ss, InTest s := by
    simp only [ss, List.mem_cons, forall_eq_or_imp, List.not_mem_nil, false_imp_iff, implies_true, and_true]
    exact ⟨.ifElse _ _ first (by simp), .ifMissing _ _ fun s hs => Option.some_inj.1 hs ▸ second⟩
  obtain ⟨es, hes, hrun⟩ := list_of_inTest h
  exact ⟨es, hes, fun m => (hrun m).1⟩

end Sequence

end ScriptOptimizer
