import ScriptOptimizer.Proofs.LoweringLoop
import ScriptOptimizer.Proofs.LoweringNames

/-!
# Laws of statements

A law of code says what a statement keeps as well, given what its branches, loops and functions do. As for
expressions, two ways to lower the parts of a tree stand side by side: they may differ in general and still
agree wherever a law holds, and then they give the same for the whole tree. The lemmas of this module follow
the forms of statements once, for all laws.
-/

namespace ScriptOptimizer

/-- The condition that a loop tests. -/
def Stmt.test? : Stmt → Option Expr
  | .whileLoop _ t _ | .doWhile _ _ t => some t
  | .forLoop _ _ _ t _ _ => some (t.getD (.literal {} (.bool true)))
  | _ => none

namespace Lowering

open IR

/-! ## Parts of statements -/

/-- The expressions that are lowered as parts of a statement, with their scopes. -/
def exprsOf (d : ScopeId) : Stmt → List (ScopeId × Expr)
  | .varDecl x => (x.decls.filterMap (·.init)).map (d, ·)
  | .expr _ e | .throwValue _ e | .ifElse _ e _ _ | .whileLoop _ e _ | .doWhile _ _ e
  | .forIn _ _ _ _ _ e _ => [(d, e)]
  | .forLoop _ scope _ t u _ =>
    (t.getD (.literal {} (.bool true)) :: u.toList).map (scope.getD d, ·)
  | .returnValue _ e => e.toList.map (d, ·)
  | _ => []

/-- The statements that are lowered as parts of a statement, with their scopes. -/
def stmtsOf (d : ScopeId) : Stmt → List (ScopeId × Stmt)
  | .block _ scope list => list.map (scope.getD d, ·)
  | .ifElse _ _ a b => (a :: b.toList).map (d, ·)
  | .whileLoop _ _ a | .doWhile _ a _ => [(d, a)]
  | .forLoop _ scope init _ _ a => (a :: init.toList).map (scope.getD d, ·)
  | .forIn _ scope _ _ _ _ a => [(scope.getD d, a)]
  | _ => []

/-- The name that a loop over keys or values writes to. -/
def eachTarget (decl : Option VarDecl) (target : Option Expr) : String :=
  match decl with
  | some d => (d.decls.head?.map (·.name)).getD ""
  | none => (target.bind identName?).getD ""

/-- The statements of a function: those that give its parameters their default values come first. -/
def bodyOf (f : Func) : List Stmt :=
  f.params.filterMap (fun x => x.default.map (defaultStmt x)) ++ f.body

section

variable {P : Node → Prop} {x : Stmt} {d : ScopeId}

/-- The expressions of a statement satisfy the rule for its nodes. -/
theorem all_exprsOf (h : x.All P) (htrue : P (.expr (.literal {} (.bool true)))) {e : ScopeId × Expr}
    (he : e ∈ exprsOf d x) : e.2.All P := by
  cases x with
  | varDecl v =>
    obtain ⟨e, hm, rfl⟩ := List.mem_map.mp he
    obtain ⟨y, hy, hi⟩ := List.mem_filterMap.mp hm
    exact h.varDecl hy hi
  | expr => exact List.mem_singleton.mp he ▸ h.expr
  | throwValue => exact List.mem_singleton.mp he ▸ h.throwValue
  | ifElse => exact List.mem_singleton.mp he ▸ h.ifElse.1
  | whileLoop => exact List.mem_singleton.mp he ▸ h.whileLoop.1
  | doWhile => exact List.mem_singleton.mp he ▸ h.doWhile.2
  | forIn => exact List.mem_singleton.mp he ▸ h.forIn.1
  | forLoop p scope init t u a =>
    obtain ⟨-, -, ht, hu, -⟩ := h.forLoop
    obtain ⟨e, hm, rfl⟩ := List.mem_map.mp he
    rcases List.mem_cons.mp hm with rfl | hm
    · cases t with
      | none =>
        intro v hv
        simp only [Option.getD_none, Walk.expr, List.mem_singleton] at hv
        rw [hv]
        exact htrue
      | some t => exact ht t rfl
    · exact hu e (Option.mem_toList.mp hm)
  | returnValue p arg =>
    obtain ⟨e, hm, rfl⟩ := List.mem_map.mp he
    exact h.returnValue e (Option.mem_toList.mp hm)
  | hole | function | block | breakLoop | continueLoop | empty | labeled => cases he

/-- The statements of a statement satisfy the rule for its nodes. -/
theorem all_stmtsOf (h : x.All P) {y : ScopeId × Stmt} (hy : y ∈ stmtsOf d x) : y.2.All P := by
  cases x with
  | block =>
    obtain ⟨y, hm, rfl⟩ := List.mem_map.mp hy
    exact h.block hm
  | ifElse =>
    obtain ⟨y, hm, rfl⟩ := List.mem_map.mp hy
    rcases List.mem_cons.mp hm with rfl | hm
    · exact h.ifElse.2.1
    · exact h.ifElse.2.2 y (Option.mem_toList.mp hm)
  | whileLoop => exact List.mem_singleton.mp hy ▸ h.whileLoop.2
  | doWhile => exact List.mem_singleton.mp hy ▸ h.doWhile.1
  | forLoop =>
    obtain ⟨-, hinit, -, -, ha⟩ := h.forLoop
    obtain ⟨y, hm, rfl⟩ := List.mem_map.mp hy
    rcases List.mem_cons.mp hm with rfl | hm
    · exact ha
    · exact hinit y (Option.mem_toList.mp hm)
  | forIn => exact List.mem_singleton.mp hy ▸ h.forIn.2
  | hole | varDecl | function | expr | throwValue | returnValue | breakLoop | continueLoop | empty
  | labeled => cases hy

/-- The statements of a function satisfy the rule for its nodes, if those that lowering makes up do. -/
theorem all_bodyOf {f : Func} (h : f.All P) (hP : ∀ e, P (.expr e)) (hexpr : ∀ p e, P (.stmt (.expr p e)))
    (hif : ∀ p e a, P (.stmt (.ifElse p e a none))) (hx : x ∈ bodyOf f) : x.All P := by
  rcases List.mem_append.mp hx with hx | hx
  · obtain ⟨y, hy, hd⟩ := List.mem_filterMap.mp hx
    obtain ⟨e, he, rfl⟩ := Option.map_eq_some_iff.mp hd
    exact .defaultStmt hP (hexpr _) (hif _) (h.default hy he)
  · exact h.body hx

end

/-- Whether control always passes a statement. -/
def isPassed : Stmt → Bool
  | .varDecl _ | .expr .. | .ifElse _ _ _ none => true
  | _ => false

/-- The site of the code of a function. -/
def Site.ofFunction (names : Names) (i : FuncId) (depth : Nat) : Site :=
  { func := i, scope := (names.function i).scope, depth }

/-- The state in which the code of a function starts. -/
def State.enterFunction (s : State) (i : FuncId) : State :=
  { s with
    program := s.program.addBlock i none
    tracking := {}
    block := s.program.blocks.size
    terminated := false }

/-- The state behind the code of a function that was entered in another state. -/
def State.exitFunction (s t : State) : State :=
  { t with block := s.block, terminated := s.terminated, tracking := s.tracking }

/-- A jump to the end of the round or behind the loop. -/
def jumpTo (c : Site) (frame : Frame) (action : Action) (pos : Position) : Lower Unit := do
  sync c frame pos
  discard (emit c action pos [])
  modify fun s => { s with terminated := true }

/-- How the parts of a tree are lowered. -/
structure Parts where
  value : Part
  stmt : Site → Stmt → Lower Unit
  function : Site → Func → Lower FuncId

/-- How trees are lowered that nest to the given number of steps. -/
def parts (fuel : Nat) : Parts := ⟨expr fuel, stmt fuel, function fuel⟩

/-- How trees are lowered whose parts are lowered in a given way. -/
def Parts.layer (P : Parts) : Parts :=
  ⟨exprWith P.value P.function, stmtWith P.value P.stmt P.function, functionWith P.stmt P.function⟩

theorem layer_parts (fuel : Nat) : (parts fuel).layer = parts (fuel + 1) := rfl

/-! ## Laws -/

/-- A property that the lowering of statements keeps. -/
structure CodeLaw (names : Names) extends Law names where
  /-- The statements that are lowered in a scope of a function. -/
  Code : FuncId → ScopeId → Stmt → Prop
  /-- The functions that are declared there. -/
  Binds : FuncId → ScopeId → Func → Prop
  /-- What holds behind a statement. -/
  Behind : Site → State → Prop
  /-- How a statement may change the state, by the loop around it. -/
  Pass : Option Frame → State → State → Prop
  code_expr : ∀ {f d x e}, Code f d x → e ∈ exprsOf d x → Tree f e.1 e.2
  code_stmt : ∀ {f d x y}, Code f d x → y ∈ stmtsOf d x → Code f y.1 y.2
  code_declares : ∀ {f d x y}, Code f d (.varDecl x) → y ∈ x.decls →
    (y.init.isSome = true ∨ x.kind ≠ .var) → (∃ p, Tree f d (.ident p y.name)) ∧ Writes f d y.name
  code_function : ∀ {f d p g}, Code f d (.function p g) → Body f d g
  code_binds : ∀ {f d p scope list q g}, Code f d (.block p scope list) → .function q g ∈ list →
    Binds f (scope.getD d) g
  body_stmt : ∀ {f d g i x}, Body f d g → g.id = some i → x ∈ bodyOf g →
    Code i (names.function i).scope x
  body_binds : ∀ {f d g i q k}, Body f d g → g.id = some i → .function q k ∈ g.body →
    Binds i (names.function i).scope k
  pass_refl : ∀ k s, Pass k s s
  pass_trans : ∀ {k s t u}, Pass k s t → Pass k t u → Pass k s u
  pass_step : ∀ {k s t}, Step s t → Pass k s t
  behind_inv : ∀ {c s}, Inv c s → Behind c s
  inv_behind : ∀ {c s}, Behind c s → s.terminated = false → Inv c s
  /-- A loop is lowered behind its first part, whether control gets there or not. -/
  inv_first : ∀ {f d p scope i t u a c s}, Code f d (.forLoop p scope (some i) t u a) → Behind c s →
    (isPassed i = true → Inv c s) → Inv c s
  inv_scope : ∀ {c s} d, Inv c s → Inv { c with scope := d } s
  behind_site : ∀ {c d s}, d.func = c.func → d.parent = c.parent → d.loop = c.loop → d.nest = c.nest →
    Behind c s → Behind d s
  inv_declare : ∀ {c s} r, Inv c s → Inv c (s.declare r) ∧ Step s (s.declare r)
  /-- Giving a variable of a function its first value. -/
  initVar : ∀ {f d g i depth s b pos x s'}, Body f d g → g.id = some i →
    b ∈ (names.scope (names.function i).scope).bindings → Inv (.ofFunction names i depth) s →
    hold (.ofFunction names i depth) (.literal .undefined) pos names s = .ok (x, s') →
    Inv (.ofFunction names i depth) { s' with values := s'.values.setIfInBounds b (some x) } ∧
    Step s { s' with values := s'.values.setIfInBounds b (some x) }
  directive : ∀ {c s v pos x s'}, Inv c s →
    emit c (.eval (.operand (.literal v))) pos [.io] names s = .ok (x, s') → Inv c s' ∧ Step s s'
  leave : ∀ {c s v pos s'} action, action = .returnValue ∨ action = .throwValue → Inv c s → Ok s v →
    Lowering.leave c action v pos names s = .ok ((), s') → Behind c s' ∧ Pass c.loop s s'
  jump : ∀ {c s frame action pos s'}, c.loop = some frame →
    action = .continueLoop frame.loop ∨ action = .breakLoop frame.loop → Inv c s →
    jumpTo c frame action pos names s = .ok ((), s') → Behind c s' ∧ Pass c.loop s s'
  /-- Binding the name of a declared function. -/
  declare : ∀ {c g s b i pos s'}, Binds c.func c.scope g → names.lookup c.scope g.name = some b →
    Inv c s → BindsFunction names c pos i b s s' → Inv c s' ∧ Step s s'
  enter : ∀ {c s i d}, Inv c s → s.program.firstBlock? i = none →
    Inv (.ofFunction names i d) (s.enterFunction i)
  exit : ∀ {c s t i depth}, Inv c s → Behind (.ofFunction names i depth) t →
    Pass none (s.enterFunction i) t → Inv c (s.exitFunction t) ∧ Step s (s.exitFunction t)
  ifElse : ∀ {c s cond thenArm elseArm pos s'}, Inv c s → Ok s cond →
    (∀ arm, arm = thenArm ∨ elseArm = some arm → ∀ t t', Inv (c.inArm s.program.stmts.size) t →
      arm (c.inArm s.program.stmts.size) names t = .ok ((), t') →
        Behind (c.inArm s.program.stmts.size) t' ∧ Pass c.loop t t') →
    Lowering.branch c cond thenArm elseArm [] pos names s = .ok ((), s') →
      Behind c s' ∧ Pass c.loop s s' ∧ (elseArm = none → Inv c s')
  testedLoop : ∀ {fuel c s s' x d behind test body update pos}, Code c.func d x → x.test? = some test →
    x.pos = pos → toLaw.Lowers False (Lowering.expr fuel) (Lowering.expr fuel) → Tree c.func c.scope test →
    (∀ e, update = some e → Tree c.func c.scope e) → Code c.func c.scope body →
    (∀ f, f.update = update → f.head = c.scope → ∀ t t', Inv (c.inLoop f) t →
      Lowering.stmt fuel (c.inLoop f) body names t = .ok ((), t') →
        Behind (c.inLoop f) t' ∧ Pass (some f) t t') → Inv c s →
    Lowering.testedLoop (Lowering.expr fuel) (Lowering.stmt fuel) c behind test body update pos names s =
      .ok ((), s') → Inv c s' ∧ Pass c.loop s s'
  iteratedLoop : ∀ {fuel c s s' d of decl target right object body pos scope},
    Code c.func d (.forIn pos scope of decl target right body) → c.scope = scope.getD d → Ok s object →
    (∀ f, f.update = none → ∀ t t', Inv (c.inLoop f) t →
      Lowering.stmt fuel (c.inLoop f) body names t = .ok ((), t') →
        Behind (c.inLoop f) t' ∧ Pass (some f) t t') → Inv c s →
    Lowering.iteratedLoop (Lowering.stmt fuel) c of decl.isSome (eachTarget decl target) object body pos
      names s = .ok ((), s') → Inv c s' ∧ Pass c.loop s s'

namespace CodeLaw

variable {names : Names} (L : CodeLaw names)

variable {fuel : Nat}

/-- The state behind a statement at a site. -/
structure Passes (c : Site) (s s' : State) : Prop where
  behind : L.Behind c s'
  pass : L.Pass c.loop s s'

/-- The update of the loop around a site is lowered in the scope of its head. -/
def Around (c : Site) : Prop :=
  ∀ f e, c.loop = some f → f.update = some e → L.Tree c.func f.head e

/-- Two ways to lower statements side by side. -/
def Runs (A : Prop) (stmt stmt' : Site → Stmt → Lower Unit) : Prop :=
  ∀ c x s, L.Code c.func c.scope x → L.Around c → L.Inv c s → Alike A names s (stmt c x) (stmt' c x) fun t _ =>
    L.Passes c s t ∧ (isPassed x = true → L.Inv c t)

/-- Two ways to lower parts that the law is about, side by side. -/
structure Obey (A : Prop) (P P' : Parts) : Prop where
  value : L.toLaw.Lowers A P.value P'.value
  stmt : L.Runs A P.stmt P'.stmt
  function : L.toLaw.Calls A P.function P'.function

/-- Two steps side by side behind which a statement has been passed. -/
def Leads (A : Prop) (c : Site) (s : State) (m m' : Lower Unit) : Prop :=
  Alike A names s m m' fun t _ => L.Passes c s t

/-- The law holds where the test and the body of a loop start, whichever comes first. -/
structure StartsLoop (fuel : Nat) (c : Site) (frame : Frame) (behind : Bool)
    (test : Expr) (body : Stmt) (pos : Position) (b : BlockId) (s : State) : Prop where
  first_test : L.Inv (c.inLoop frame) { s with block := b, terminated := false }
  first_body : L.Inv (c.inLoop frame) { s with block := b + 1, terminated := false }
  second_body : ∀ {t}, RunsTest names (testStep (expr fuel) (c.inLoop frame) frame test pos) frame.loop
      behind b s t → L.Inv (c.inLoop frame) { t with block := b + 1, terminated := false }
  second_test : ∀ {t},
    RunsBody names (bodyStep (expr fuel) (Lowering.stmt fuel) (c.inLoop frame) frame body pos) (b + 1) s t →
      L.Inv (c.inLoop frame) { t.reloaded frame with block := b, terminated := false }

/-- The law holds wherever the parts of branches and loops start. -/
structure StartsParts : Prop where
  first : ∀ {c s cond pos}, L.Inv c s → L.Ok s cond → L.Inv (c.inArm s.program.stmts.size)
    ((s.emitBranch c cond pos).startArm c s.program.stmts.size)
  second : ∀ {c s cond pos t} (tracked : List BindingId), L.Inv c s → L.Ok s cond →
    L.Behind (c.inArm s.program.stmts.size) t →
    L.Pass c.loop ((s.emitBranch c cond pos).startArm c s.program.stmts.size) t →
    L.Inv (c.inArm s.program.stmts.size)
      (((s.emitBranch c cond pos).leaveArm t (tracked.zip (s.valuesOf tracked))).startArm c
        s.program.stmts.size)
  testedLoop : ∀ {fuel c s x d behind test body update carried s1 frame}, L.Code c.func d x →
    x.test? = some test → L.Tree c.func c.scope test →
    (∀ e, update = some e → L.Tree c.func c.scope e) → L.Code c.func c.scope body → L.Inv c s →
    enterTested names c test update body x.pos names { s with tracking := {} } = .ok (carried, s1) →
    frame = { loop := s1.program.stmts.size, carried, update, head := c.scope } →
    L.StartsLoop fuel c frame behind test body x.pos s1.program.blocks.size
      (s1.startTested c behind x.pos)
  iteratedLoop : ∀ {c s d of decl target right object body pos scope declared assigned carried s1 frame each},
    L.Code c.func d (.forIn pos scope of decl target right body) → c.scope = scope.getD d →
    L.Ok s object → L.Inv c s →
    (iteratedBindings names c (eachTarget decl target) body).mapM (enterBinding c pos) names
      { s with declared, tracking := {} } = .ok (carried, s1) →
    frame = { loop := s1.program.stmts.size, carried, update := none, head := c.scope } →
    each = placeOfEach names (eachTarget decl target) (names.resolve c.scope (eachTarget decl target))
      carried → s1.program.assigned.Within assigned →
    L.Inv (c.inLoop frame) { { s1 with program := { s1.program with assigned } }.startIterated c of each object pos with
          block := s1.program.blocks.size, terminated := false }

variable {L} {A : Prop} {c : Site} {s s' t : State} {pos : Position} {value value' : Part}
  {stmt stmt' : Site → Stmt → Lower Unit} {P P' : Parts}

theorem Passes.trans (h : L.Pass c.loop s s') (k : L.Passes c s' t) : L.Passes c s t :=
  ⟨k.behind, L.pass_trans h k.pass⟩

/-- What keeps the law in the middle of code keeps it behind a statement. -/
theorem Passes.of_keeps (h : L.toLaw.Keeps c s s') : L.Passes c s s' :=
  ⟨L.behind_inv h.inv, L.pass_step h.step⟩

theorem Passes.of_site {d : Site} (h : L.Passes d s s') (hf : c.func = d.func)
    (hp : c.parent = d.parent) (hl : c.loop = d.loop) (hn : c.nest = d.nest) : L.Passes c s s' :=
  ⟨L.behind_site hf hp hl hn h.behind, hl ▸ h.pass⟩

/-- A statement that is passed behind a step in the middle of code. -/
theorem Leads.after {α : Type} {m m' : Lower α} {Q : State → α → Prop} {f f' : α → Lower Unit}
    (h : L.toLaw.Does A c s m m' Q) (k : ∀ a t, L.toLaw.Keeps c s t → Q t a → L.Leads A c t (f a) (f' a)) :
    L.Leads A c s (m >>= f) (m' >>= f') :=
  Alike.bind h fun a t _ ht => Alike.imp (k a t ht.1 ht.2) fun hu => .trans (L.pass_step ht.1.step) hu

/-! ## Forms of statements -/

theorem exprStmt_does (hv : L.toLaw.Lowers A value value') {e : Expr} (he : L.Tree c.func c.scope e)
    (hi : L.Inv c s) : L.toLaw.Does A c s (exprStmt value c pos e) (exprStmt value' c pos e) fun _ _ => True := by
  unfold Lowering.exprStmt
  split
  · refine .of_gives fun e => ?_
    obtain ⟨x, e1⟩ := discard_ok e
    obtain ⟨hi', hstep⟩ := L.directive hi e1
    exact ⟨⟨hi', hstep⟩, trivial⟩
  · exact (hv c _ s he hi).discard

theorem declareVar_does (hv : L.toLaw.Lowers A value value') {d : VarDecl} {x : Declarator}
    (hd : L.Code c.func c.scope (.varDecl d)) (hx : x ∈ d.decls) (hi : L.Inv c s) :
    L.toLaw.Does A c s (declareVar value c d.kind x) (declareVar value' c d.kind x) fun _ _ => True := by
  have htree : ∀ e, x.init = some e → L.Tree c.func c.scope e := fun e he =>
    L.code_expr hd (List.mem_map.mpr ⟨e, List.mem_filterMap.mpr ⟨x, hx, he⟩, rfl⟩)
  constructor
  case same =>
    refine fun hA => bind_eq_bind rfl fun b t e => ?_
    obtain ⟨rfl, rfl⟩ := Law.resolve_ok e
    cases he : x.init with
    | none => rfl
    | some e => exact bind_eq_bind ((hv c e t (htree e he) hi).same hA) fun _ _ _ => rfl
  case gives =>
    intro _ s' h
    obtain ⟨v, t, hvalue, hrest⟩ := declareVar_ok h
    -- A variable that is declared without a value is written only if it is lexical.
    have hinit : ∀ y, v = some y → x.init.isSome = true ∨ d.kind ≠ .var := by
      rcases hvalue with ⟨-, -, rfl⟩ | ⟨e, -, he, -, -⟩
      · refine fun y hy => .inr fun hkind => ?_
        rw [if_pos hkind] at hy
        cases hy
      · exact fun _ _ => .inl (by rw [he]; rfl)
    have k1 : L.toLaw.Keeps c s t ∧ ∀ y, v = some y → L.Ok t y := by
      rcases hvalue with ⟨-, rfl, rfl⟩ | ⟨e, y, he, hy, rfl⟩
      · refine ⟨.refl hi, fun y hy => L.ok_fixed ?_⟩
        split at hy
        · cases hy
        · cases hy
          rfl
      · obtain ⟨k, hok⟩ := (hv c e s (htree e he) hi).gives hy
        exact ⟨k, fun z hz => by cases hz; exact hok⟩
    obtain ⟨hi2, hs2⟩ := L.inv_declare (names.resolve c.scope x.name) k1.1.inv
    have k2 := k1.1.trans ⟨hi2, hs2⟩
    rcases hrest with ⟨-, rfl⟩ | ⟨y, z, rfl, hw⟩
    · exact ⟨k2, trivial⟩
    · obtain ⟨⟨p, hname⟩, hwrites⟩ := L.code_declares hd hx (hinit y rfl)
      obtain ⟨hi3, hs3, -⟩ := L.writeName hname hwrites hi2 (L.ok_step hs2 (k1.2 y rfl)) hw
      exact ⟨k2.trans ⟨hi3, hs3⟩, trivial⟩

theorem varDecl_does (hv : L.toLaw.Lowers A value value') {d : VarDecl} (hd : L.Code c.func c.scope (.varDecl d))
    (hi : L.Inv c s) : L.toLaw.Does A c s (varDecl value c d) (varDecl value' c d) fun _ _ => True := by
  rw [varDecl_eq, varDecl_eq]
  exact .forM hi fun x hx t ht => declareVar_does hv hd hx ht

theorem declareFunction_does {function function' : Site → Func → Lower FuncId}
    (hf : L.toLaw.Calls A function function') {f : Func} (hb : L.Body c.func c.scope f)
    (hbinds : L.Binds c.func c.scope f) (hi : L.Inv c s) :
    L.toLaw.Does A c s (declareFunction function c pos f) (declareFunction function' c pos f) fun _ _ => True where
  same hA := bind_eq_bind ((hf c f s hb hi).same hA) fun _ _ _ => rfl
  gives e := by
    obtain ⟨i, t, b, e1, hlookup, hrest⟩ := declareFunction_ok e
    have k1 := ((hf c f s hb hi).gives e1).1
    obtain ⟨hi2, hs2⟩ := L.declare hbinds hlookup k1.inv hrest
    exact ⟨k1.trans ⟨hi2, hs2⟩, trivial⟩

/-- Statements one after the other, until control cannot pass one. -/
theorem Runs.run (hstmt : L.Runs A stmt stmt') (hc : L.Around c) {list : List Stmt}
    (hlist : ∀ x, x ∈ list → L.Code c.func c.scope x) (hb : L.Behind c s) :
    L.Leads A c s (run stmt c list) (run stmt' c list) := by
  have hstop : ∀ {s}, L.Behind c s → L.Leads A c s (pure ()) (pure ()) := fun hb => .of_gives fun e => by
    cases e
    exact ⟨hb, L.pass_refl _ _⟩
  induction list generalizing s with
  | nil => exact hstop hb
  | cons x xs ih =>
    refine .step fun st s1 e1 => ?_
    obtain ⟨rfl, rfl⟩ := get_ok e1
    split
    · exact hstop hb
    · next hrunning =>
      refine (hstmt c x _ (hlist x List.mem_cons_self) hc (L.inv_behind hb (by simpa using hrunning))).bind
        fun _ s2 _ k2 => ?_
      exact Alike.imp (ih (fun y hy => hlist y (List.mem_cons_of_mem _ hy)) k2.1.behind) fun k => .trans k2.1.pass k

theorem Obey.body (h : L.Obey A P P') (hc : L.Around c) {list : List Stmt}
    (hlist : ∀ x, x ∈ list → L.Code c.func c.scope x)
    (hbinds : ∀ p f, .function p f ∈ list → L.Binds c.func c.scope f) (hi : L.Inv c s) :
    L.Leads A c s (body P.function P.stmt c list) (body P'.function P'.stmt c list) := by
  refine .after (.forM hi fun x hx t ht => ?_) fun _ t k _ => h.stmt.run hc hlist (L.behind_inv k.inv)
  cases x with
  | function pos f => exact declareFunction_does h.function (L.code_function (hlist _ hx)) (hbinds pos f hx) ht
  | _ => exact .pure ht trivial

theorem initVars_does {f : FuncId} {d : ScopeId} {g : Func} {i : FuncId} {depth : Nat}
    (hb : L.Body f d g) (hid : g.id = some i) (hi : L.Inv (.ofFunction names i depth) s) :
    L.toLaw.Does A (.ofFunction names i depth) s (initVars (.ofFunction names i depth))
      (initVars (.ofFunction names i depth)) fun _ _ => True := by
  refine .read (fun e => (read_ok e).2) fun n e => ?_
  obtain ⟨rfl, -⟩ := read_ok e
  refine .forM hi fun b hmem t ht => ?_
  dsimp only
  split
  · refine .of_gives fun e => ?_
    obtain ⟨x, t1, e1, h1⟩ := bind_ok e
    cases h1
    obtain ⟨hi2, hs2⟩ := L.initVar hb hid hmem ht e1
    exact ⟨⟨hi2, hs2⟩, trivial⟩
  · exact .pure ht trivial

/-! ## Functions -/

private theorem functionCode_leads (h : L.Obey A P P') {f : Func} {i : FuncId} {depth : Nat}
    (hb : L.Body c.func c.scope f) (hid : f.id = some i) (hi : L.Inv (.ofFunction names i depth) s) :
    L.Leads A (.ofFunction names i depth) s
      (do
        initVars (.ofFunction names i depth)
        f.params.forM fun x => do
          if let some e := x.default then P.stmt (.ofFunction names i depth) (defaultStmt x e)
        body P.function P.stmt (.ofFunction names i depth) f.body)
      (do
        initVars (.ofFunction names i depth)
        f.params.forM fun x => do
          if let some e := x.default then P'.stmt (.ofFunction names i depth) (defaultStmt x e)
        body P'.function P'.stmt (.ofFunction names i depth) f.body) := by
  have hcode : ∀ x, x ∈ bodyOf f → L.Code i (names.function i).scope x := fun x hx =>
    L.body_stmt hb hid hx
  have haround : L.Around (.ofFunction names i depth) := nofun
  refine .after (initVars_does hb hid hi) fun _ t1 k1 _ => ?_
  refine (Alike.forM (P := fun u => L.Inv (.ofFunction names i depth) u ∧ L.Pass none t1 u)
    ⟨k1.inv, L.pass_refl _ _⟩ fun x hx u hu => ?_).bind fun _ t2 _ k2 => ?_
  · cases he : x.default with
    | none => exact .of_gives fun e => by cases e; exact hu
    | some e =>
      have hx' : defaultStmt x e ∈ bodyOf f :=
        List.mem_append_left _ (List.mem_filterMap.mpr ⟨x, hx, by rw [he]; rfl⟩)
      exact (h.stmt _ _ u (hcode _ hx') haround hu.1).imp fun k => ⟨k.2 rfl, L.pass_trans hu.2 k.1.pass⟩
  · exact Alike.imp (h.body haround (fun x hx => hcode x (List.mem_append_right _ hx))
      (fun _ _ hg => L.body_binds hb hid hg) k2.1) fun k => .trans k2.2 k

/-- A function is lowered apart from the code around it. -/
theorem Obey.function_apart (h : L.Obey A P P') {f : Func} (hb : L.Body c.func c.scope f) (hi : L.Inv c s) :
    Alike A names s (P.layer.function c f) (P'.layer.function c f) fun t i => ∃ u, t = s.exitFunction u ∧
      L.Behind (.ofFunction names i (c.depth + 1)) u ∧ L.Pass none (s.enterFunction i) u := by
  change Alike A names s (Lowering.functionWith P.stmt P.function c f) (Lowering.functionWith P'.stmt P'.function c f) _
  unfold Lowering.functionWith
  cases hid : f.id with
  | none => exact .of_fails broken_ok
  | some i =>
    refine .step fun st t e => ?_
    obtain ⟨rfl, rfl⟩ := get_ok e
    dsimp only
    split
    · exact Alike.step fun _ _ e => (refuse_ok e).elim
    · next hfirst =>
      have hcode := functionCode_leads h hb hid (L.enter (d := c.depth + 1) hi (by simpa using hfirst))
      refine Alike.step fun b s2 e2 => ?_
      rw [newBlock_apply] at e2
      cases e2
      refine .step fun n s3 e3 => ?_
      obtain ⟨rfl, rfl⟩ := read_ok e3
      refine .step fun _ s4 e4 => ?_
      cases e4
      refine .next (fun hA => within_same (hcode.same hA)) fun _ s5 e5 => .of_gives fun e => ?_
      obtain ⟨_, t, ht, -, rfl⟩ := within_ok e5
      cases e
      have k := hcode.gives ht
      exact ⟨t, rfl, k.behind, k.pass⟩

/-- Functions do what their statements do. -/
theorem Obey.functionWith (h : L.Obey A P P') : L.toLaw.Calls A P.layer.function P'.layer.function := by
  intro c f s hb hi
  refine Alike.imp (h.function_apart hb hi) ?_
  rintro t i ⟨u, rfl, hu, hp⟩
  obtain ⟨hi4, hs4⟩ := L.exit hi hu hp
  exact ⟨⟨hi4, hs4⟩, trivial⟩

/-! ## Branches and loops -/

/-- Branches are the same if their arms are where the law holds. -/
theorem branch_same (hL : L.StartsParts) (hA : A) {cond : Operand} {thenArm thenArm' : Site → Lower Unit}
    {elseArm elseArm' : Option (Site → Lower Unit)} {extra : List BindingId} (hi : L.Inv c s) (hcond : L.Ok s cond)
    (hthen : ∀ t, L.Inv (c.inArm s.program.stmts.size) t → L.Leads A (c.inArm s.program.stmts.size) t
      (thenArm (c.inArm s.program.stmts.size)) (thenArm' (c.inArm s.program.stmts.size)))
    (helse : Option.Rel (fun arm arm' => ∀ t, L.Inv (c.inArm s.program.stmts.size) t →
      L.Leads A (c.inArm s.program.stmts.size) t (arm (c.inArm s.program.stmts.size))
        (arm' (c.inArm s.program.stmts.size))) elseArm elseArm') :
    branch c cond thenArm' elseArm' extra pos names s = branch c cond thenArm elseArm extra pos names s := by
  have hfirst : L.Inv (c.inArm s.program.stmts.size)
      ((s.emitBranch c cond pos).startArm c s.program.stmts.size) := hL.first hi hcond
  refine (branch_alike thenArm' elseArm' rfl (fun hA => (hthen _ hfirst).same hA) ?_).same hA
  cases helse with
  | none => exact .none
  | some harm =>
    refine .some fun hA t ht => (harm _ ?_).same hA
    have k := (hthen _ hfirst).gives ht
    exact hL.second _ hi hcond k.behind k.pass

theorem branches_toLaw (hL : A → L.StartsParts) : L.toLaw.Branches A := by
  intro c s cond thenArm thenArm' elseArm elseArm' extra pos Q hA hi hcond hthen helse
  refine branch_same (hL hA) hA hi hcond (fun t ht => Alike.imp (hthen _ t ht) fun k => .of_keeps k.1) ?_
  cases helse with
  | none => exact .none
  | some harm => exact .some fun t ht => Alike.imp (harm _ t ht) fun k => .of_keeps k.1

theorem runUpdate_does (hv : L.toLaw.Lowers A value value') {frame : Frame} (hc : L.Around c)
    (hl : c.loop = some frame) (hi : L.Inv c s) :
    L.toLaw.Does A c s (runUpdate value c frame) (runUpdate value' c frame) fun _ _ => True := by
  unfold runUpdate
  cases hu : frame.update with
  | none => exact .pure hi trivial
  | some e =>
    exact Alike.imp (hv { c with scope := frame.head } e s (hc frame e hl hu) (L.inv_scope _ hi)).discard
      fun k => ⟨⟨L.inv_scope (c := { c with scope := frame.head }) c.scope k.1.inv, k.1.step⟩, trivial⟩

/-- The body of a loop, with what follows it in every round. -/
theorem Obey.bodyStep_same (h : L.Obey A P P') (hA : A) {frame : Frame} {x : Stmt} (hc : L.Around c)
    (hl : c.loop = some frame) (hx : L.Code c.func c.scope x) (hi : L.Inv c s) :
    bodyStep P'.value P'.stmt c frame x pos names s = bodyStep P.value P.stmt c frame x pos names s := by
  refine bind_eq_bind ((h.stmt c x s hx hc hi).same hA) fun _ s1 e1 => ?_
  have hb := ((h.stmt c x s hx hc hi).gives e1).1.behind
  refine bind_eq_bind rfl fun st s2 e2 => ?_
  obtain ⟨rfl, rfl⟩ := get_ok e2
  split
  · rfl
  · next hrunning =>
    exact bind_eq_bind ((runUpdate_does h.value hc hl (L.inv_behind hb (by simpa using hrunning))).same hA)
      fun _ _ _ => rfl

/-- The test of a loop, with what follows it in every round. -/
theorem testStep_same (hv : L.toLaw.Lowers A value value') (hA : A) {frame : Frame} {e : Expr}
    (he : L.Tree c.func c.scope e) (hi : L.Inv c s) :
    testStep value' c frame e pos names s = testStep value c frame e pos names s :=
  bind_eq_bind ((hv c e s he hi).same hA) fun _ _ _ => rfl

/-- Loops with a condition are the same if their parts are where these start. -/
theorem Obey.testedLoop_same (h : L.Obey A (parts fuel) P') (hA : A)
    {body : Stmt} {behind : Bool} {test : Expr} {update : Option Expr} (htest : L.Tree c.func c.scope test)
    (hupdate : ∀ e, update = some e → L.Tree c.func c.scope e) (hbody : L.Code c.func c.scope body)
    (hstart : ∀ {carried s1 frame},
      enterTested names c test update body pos names { s with tracking := {} } = .ok (carried, s1) →
      frame = { loop := s1.program.stmts.size, carried, update, head := c.scope } →
      L.StartsLoop fuel c frame behind test body pos s1.program.blocks.size
        (s1.startTested c behind pos)) :
    Lowering.testedLoop P'.value P'.stmt c behind test body update pos names s =
      Lowering.testedLoop (expr fuel) (Lowering.stmt fuel) c behind test body update pos names s := by
  refine (testedLoop_alike P'.value P'.stmt fun hA carried s1 frame henter hframe b t0 hb ht0 => ?_).same hA
  have hstart : L.StartsLoop fuel c frame behind test body pos b t0 := by
    rw [ht0, hb]
    exact hstart henter hframe
  have haround : L.Around (c.inLoop frame) := by
    intro f e hf he
    cases hf
    rw [hframe] at he ⊢
    exact hupdate e he
  exact ⟨⟨testStep_same h.value hA htest hstart.first_test, fun t ht =>
      h.bodyStep_same hA haround rfl hbody (hstart.second_body ht)⟩,
    h.bodyStep_same hA haround rfl hbody hstart.first_body, fun t ht =>
      testStep_same h.value hA htest (hstart.second_test ht)⟩

/-- Loops over keys or values are the same if their bodies are where these start. -/
theorem Obey.iteratedLoop_same (h : L.Obey A (parts fuel) P') (hA : A)
    {of isDeclared : Bool} {name : String} {object : Operand} {body : Stmt} (hbody : L.Code c.func c.scope body)
    (hstart : ∀ {declared assigned carried s1 frame each},
      (iteratedBindings names c name body).mapM (enterBinding c pos) names
        { s with declared, tracking := {} } = .ok (carried, s1) →
      frame = { loop := s1.program.stmts.size, carried, update := none, head := c.scope } →
      each = placeOfEach names name (names.resolve c.scope name) carried → s1.program.assigned.Within assigned →
      L.Inv (c.inLoop frame) { { s1 with program := { s1.program with assigned } }.startIterated c of each object pos with
            block := s1.program.blocks.size, terminated := false }) :
    Lowering.iteratedLoop P'.stmt c of isDeclared name object body pos names s =
      Lowering.iteratedLoop (Lowering.stmt fuel) c of isDeclared name object body pos names s := by
  refine (iteratedLoop_alike (expr fuel) P'.value P'.stmt
    fun hA declared assigned carried s1 frame each henter hframe heach hassigned t0 ht0 => ?_).same hA
  have hstart : L.Inv (c.inLoop frame)
      { t0 with block := s1.program.blocks.size, terminated := false } := by
    rw [ht0]
    exact hstart henter hframe heach hassigned
  have haround : L.Around (c.inLoop frame) := by
    intro f e hf he
    cases hf
    rw [hframe] at he
    cases he
  exact h.bodyStep_same hA haround rfl hbody hstart

private theorem Runs.inLoop (hstmt : L.Runs A stmt stmt') {x : Stmt} {update : Option Expr}
    (hx : L.Code c.func c.scope x) (hu : ∀ e, update = some e → L.Tree c.func c.scope e) (f : Frame)
    (hf : f.update = update) (hh : ∀ e, update = some e → f.head = c.scope) (t t' : State)
    (hi : L.Inv (c.inLoop f) t) (h : stmt (c.inLoop f) x names t = .ok ((), t')) :
    L.Behind (c.inLoop f) t' ∧ L.Pass (some f) t t' := by
  have haround : L.Around (c.inLoop f) := by
    intro g e hg he
    obtain rfl : f = g := Option.some.inj hg
    rw [hh e (hf.symm.trans he)]
    exact hu e (hf.symm.trans he)
  have k := ((hstmt (c.inLoop f) x t hx haround hi).gives h).1
  exact ⟨k.behind, k.pass⟩

theorem Obey.testedLoop {fuel : Nat} (hL : A → L.StartsParts) (h : L.Obey A (parts fuel) P') {x body : Stmt}
    {d : ScopeId} {behind : Bool} {test : Expr} {update : Option Expr} (hx : L.Code c.func d x)
    (hx' : x.test? = some test) (hpos : x.pos = pos) (htest : L.Tree c.func c.scope test)
    (hupdate : ∀ e, update = some e → L.Tree c.func c.scope e) (hbody : L.Code c.func c.scope body)
    (hi : L.Inv c s) :
    L.Leads A c s (Lowering.testedLoop (expr fuel) (Lowering.stmt fuel) c behind test body update pos)
      (Lowering.testedLoop P'.value P'.stmt c behind test body update pos) where
  same hA := by
    subst hpos
    exact h.testedLoop_same hA htest hupdate hbody fun henter hframe =>
      (hL hA).testedLoop hx hx' htest hupdate hbody hi henter hframe
  gives e := by
    obtain ⟨hi', hp⟩ := L.testedLoop hx hx' hpos h.value.gives htest hupdate hbody
      (fun f hf hh => h.stmt.inLoop hbody hupdate f hf fun _ _ => hh) hi e
    exact ⟨L.behind_inv hi', hp⟩

theorem Obey.iteratedLoop {fuel : Nat} (hL : A → L.StartsParts) (h : L.Obey A (parts fuel) P') {d : ScopeId}
    {of : Bool} {decl : Option VarDecl} {target : Option Expr} {right : Expr} {object : Operand} {body : Stmt}
    {scope : Option ScopeId} (hx : L.Code c.func d (.forIn pos scope of decl target right body))
    (hc : c.scope = scope.getD d) (hbody : L.Code c.func c.scope body) (hobject : L.Ok s object) (hi : L.Inv c s) :
    L.Leads A c s
      (Lowering.iteratedLoop (Lowering.stmt fuel) c of decl.isSome (eachTarget decl target) object body pos)
      (Lowering.iteratedLoop P'.stmt c of decl.isSome (eachTarget decl target) object body pos) where
  same hA := h.iteratedLoop_same hA hbody fun henter hframe heach =>
    (hL hA).iteratedLoop hx hc hobject hi henter hframe heach
  gives e := by
    obtain ⟨hi', hp⟩ := L.iteratedLoop hx hc hobject (fun f hu => h.stmt.inLoop hbody (by simp) f hu (by simp)) hi e
    exact ⟨L.behind_inv hi', hp⟩

/-! ## All code -/

theorem jump_leads (hv : L.toLaw.Lowers A value value') {isContinue : Bool} (hc : L.Around c) (hi : L.Inv c s) :
    L.Leads A c s (Lowering.jump value c isContinue pos) (Lowering.jump value' c isContinue pos) := by
  unfold Lowering.jump
  cases hl : c.loop with
  | none => exact .of_fails fail_ok
  | some frame =>
    have hjump : ∀ {action t t'}, action = .continueLoop frame.loop ∨ action = .breakLoop frame.loop → L.Inv c t →
        jumpTo c frame action pos names t = .ok ((), t') → L.Passes c t t' := fun ha ht e => by
      obtain ⟨hb, hp⟩ := L.jump hl ha ht e
      exact ⟨hb, hp⟩
    cases isContinue with
    | true =>
      exact .after (runUpdate_does hv hc hl hi) fun _ t k _ => .of_gives fun e => hjump (.inl rfl) k.inv e
    | false => exact .of_gives fun e => hjump (.inr rfl) hi e

private theorem leave_leads (hv : L.toLaw.Lowers A value value') {action : Operand → Action} {e : Expr}
    (ha : action = .returnValue ∨ action = .throwValue) (he : L.Tree c.func c.scope e) (hi : L.Inv c s) :
    L.Leads A c s (do Lowering.leave c action (← value c e) pos) (do Lowering.leave c action (← value' c e) pos) :=
  .after (hv c e s he hi) fun _ _ k hok => .of_gives fun e => by
    obtain ⟨hb, hp⟩ := L.leave action ha k.inv hok e
    exact ⟨hb, hp⟩

private theorem ifElse_alike (hL : A → L.StartsParts) (h : L.Obey A P P') (hc : L.Around c)
    {test : Expr} {a : Stmt} {b : Option Stmt} (hx : L.Code c.func c.scope (.ifElse pos test a b))
    (hi : L.Inv c s) :
    Alike A names s
      (do
        let cond ← P.value c test
        branch c cond (fun c => P.stmt c a) (b.map fun b c => P.stmt c b) [] pos)
      (do
        let cond ← P'.value c test
        branch c cond (fun c => P'.stmt c a) (b.map fun b c => P'.stmt c b) [] pos)
      fun t _ => L.Passes c s t ∧ (b = none → L.Inv c t) := by
  refine Alike.bind (h.value c test s (L.code_expr hx List.mem_cons_self) hi) fun cond s1 _ k1 => ?_
  have harm : ∀ y, y ∈ a :: b.toList → ∀ t, L.Inv (c.inArm s1.program.stmts.size) t →
      L.Leads A (c.inArm s1.program.stmts.size) t (P.stmt (c.inArm s1.program.stmts.size) y)
        (P'.stmt (c.inArm s1.program.stmts.size) y) := fun y hy t ht =>
    (h.stmt (c.inArm s1.program.stmts.size) y t (L.code_stmt hx (List.mem_map.mpr ⟨y, hy, rfl⟩)) hc ht).imp And.left
  constructor
  case same =>
    refine fun hA => branch_same (hL hA) hA k1.1.inv k1.2 (harm a List.mem_cons_self) ?_
    cases b with
    | none => exact .none
    | some b => exact .some (harm b (by simp))
  case gives =>
    intro _ t e
    obtain ⟨hb, hp, hnone⟩ := L.ifElse k1.1.inv k1.2 (fun arm harm' t t' ht hrun => by
      obtain ⟨y, hy, rfl⟩ : ∃ y, y ∈ a :: b.toList ∧ arm = fun c => P.stmt c y := by
        rcases harm' with rfl | harm'
        · exact ⟨a, List.mem_cons_self, rfl⟩
        · obtain ⟨y, hy, rfl⟩ := Option.map_eq_some_iff.mp harm'
          exact ⟨y, List.mem_cons_of_mem _ (Option.mem_toList.mpr hy), rfl⟩
      have k := (harm y hy t ht).gives hrun
      exact ⟨k.behind, k.pass⟩) e
    exact ⟨.trans (L.pass_step k1.1.step) ⟨hb, hp⟩, fun hn => hnone (by rw [hn]; rfl)⟩

private theorem forLoop_leads (hL : A → L.StartsParts) (h : L.Obey A (parts fuel) P') (hc : L.Around c)
    {d : ScopeId} {scope : Option Nat} {init : Option Stmt} {test update : Option Expr} {a : Stmt}
    (hx : L.Code c.func d (.forLoop pos scope init test update a)) (hd : c.scope = scope.getD d)
    (hi : L.Inv c s) : L.Leads A c s
      (do
        init.forM (Lowering.stmt fuel c)
        Lowering.testedLoop (expr fuel) (Lowering.stmt fuel) c false
          (test.getD (.literal {} (.bool true))) a update pos)
      (do
        init.forM (P'.stmt c)
        Lowering.testedLoop P'.value P'.stmt c false (test.getD (.literal {} (.bool true))) a update pos) := by
  have htree : ∀ e, e ∈ test.getD (.literal {} (.bool true)) :: update.toList →
      L.Tree c.func c.scope e := by
    intro e he
    rw [hd]
    exact L.code_expr hx (List.mem_map.mpr ⟨e, he, rfl⟩)
  have hcode : ∀ y, y ∈ a :: init.toList → L.Code c.func c.scope y := by
    intro y hy
    rw [hd]
    exact L.code_stmt hx (List.mem_map.mpr ⟨y, hy, rfl⟩)
  have hinit : Alike A names s (init.forM (Lowering.stmt fuel c)) (init.forM (P'.stmt c)) fun t _ =>
      L.Inv c t ∧ L.Pass c.loop s t := by
    cases init with
    | none => exact .of_gives fun e => by cases e; exact ⟨hi, L.pass_refl _ _⟩
    | some i =>
      exact (h.stmt c i s (hcode i (by simp)) hc hi).imp fun k => ⟨L.inv_first hx k.1.behind k.2, k.1.pass⟩
  refine hinit.bind fun _ s1 _ k1 => Alike.imp (h.testedLoop hL hx rfl rfl (htree _ List.mem_cons_self)
    (fun e he => htree e (List.mem_cons_of_mem _ (Option.mem_toList.mpr he))) (hcode a List.mem_cons_self) k1.1)
    fun k => .trans k1.2 k

theorem Obey.stmtWith (hL : A → L.StartsParts) (h : L.Obey A (parts fuel) P') :
    L.Runs A (parts fuel).layer.stmt P'.layer.stmt := by
  intro c x s hx hc hi
  refine .read (fun e => (Law.deeper_ok e).2) fun d e0 => ?_
  obtain ⟨hd, -⟩ := Law.deeper_ok e0
  have hx' : L.Code d.func d.scope x := by
    rw [hd]
    exact hx
  have hc' : L.Around d := by
    rw [hd]
    exact hc
  have hi' : L.Inv d s := by
    rw [hd]
    exact (L.inv_depth _).mp hi
  suffices Alike A names s _ _ fun t _ => L.Passes d s t ∧ (isPassed x = true → L.Inv d t) by
    refine this.imp fun k => ?_
    subst hd
    exact ⟨k.1.of_site rfl rfl rfl rfl, fun hp => (L.inv_depth _).mpr (k.2 hp)⟩
  have hdoes : ∀ {m m' : Lower Unit}, L.toLaw.Does A d s m m' (fun _ _ => True) →
      Alike A names s m m' fun t _ => L.Passes d s t ∧ (isPassed x = true → L.Inv d t) :=
    fun k => Alike.imp k fun k => ⟨.of_keeps k.1, fun _ => k.1.inv⟩
  have hleads : ∀ {e m m'}, isPassed x = false → L.Leads A { d with scope := e } s m m' →
      Alike A names s m m' fun t _ => L.Passes d s t ∧ (isPassed x = true → L.Inv d t) :=
    fun hp k => Alike.imp k fun k => ⟨k.of_site rfl rfl rfl rfl, fun hp' => by rw [hp] at hp'; cases hp'⟩
  cases x with
  | hole => exact .of_fails broken_ok
  | varDecl decl => exact hdoes (varDecl_does h.value hx' hi')
  | function | empty => exact hdoes (.pure hi' trivial)
  | block pos scope list =>
    exact hleads rfl (h.body (c := { d with scope := scope.getD d.scope }) hc'
      (fun y hy => L.code_stmt hx' (List.mem_map.mpr ⟨y, hy, rfl⟩)) (fun _ _ hg => L.code_binds hx' hg)
      (L.inv_scope _ hi'))
  | expr pos e => exact hdoes (exprStmt_does h.value (L.code_expr hx' List.mem_cons_self) hi')
  | ifElse pos t a b =>
    refine (ifElse_alike hL h hc' hx' hi').imp fun k => ⟨k.1, fun hp => k.2 ?_⟩
    cases b with
    | none => rfl
    | some => cases hp
  | whileLoop pos t a =>
    exact hleads (e := d.scope) rfl (h.testedLoop hL hx' rfl rfl (L.code_expr hx' List.mem_cons_self) nofun
      (L.code_stmt hx' List.mem_cons_self) hi')
  | doWhile pos a t =>
    exact hleads (e := d.scope) rfl (h.testedLoop hL hx' rfl rfl (L.code_expr hx' List.mem_cons_self) nofun
      (L.code_stmt hx' List.mem_cons_self) hi')
  | forLoop pos scope init test update a =>
    exact hleads rfl (forLoop_leads (c := { d with scope := scope.getD d.scope }) hL h hc' hx' rfl (L.inv_scope _ hi'))
  | forIn pos scope of decl target right a =>
    refine hleads (e := d.scope) rfl (.after (h.value d right s (L.code_expr hx' List.mem_cons_self) hi')
      fun x t k hok => .after (Law.escape_does [x] k.inv) fun _ u k' _ => ?_)
    exact Alike.imp (h.iteratedLoop (c := { d with scope := scope.getD d.scope }) hL hx' rfl
      (L.code_stmt hx' List.mem_cons_self) (k'.ok hok) (L.inv_scope _ k'.inv)) fun k => k.of_site rfl rfl rfl rfl
  | breakLoop | continueLoop => exact hleads (e := d.scope) rfl (jump_leads h.value hc' hi')
  | returnValue pos arg =>
    dsimp only
    split
    · exact .of_fails fail_ok
    · cases arg with
      | none =>
        refine hleads (e := d.scope) rfl (.of_gives fun e => ?_)
        obtain ⟨hb, hp⟩ := L.leave .returnValue (.inl rfl) hi' (L.ok_fixed rfl) e
        exact ⟨hb, hp⟩
      | some e =>
        exact hleads (e := d.scope) rfl (leave_leads h.value (.inl rfl) (L.code_expr hx' List.mem_cons_self) hi')
  | throwValue pos arg =>
    exact hleads (e := d.scope) rfl (leave_leads h.value (.inr rfl) (L.code_expr hx' List.mem_cons_self) hi')
  | labeled => exact .of_fails refuse_ok

/-- Trees do what their parts do. -/
theorem Obey.layer (hL : A → L.StartsParts) (h : L.Obey A (parts fuel) P') :
    L.Obey A (parts (fuel + 1)) P'.layer := by
  rw [← layer_parts]
  exact ⟨Law.exprWith_does (branches_toLaw hL) h.value h.function, h.stmtWith hL, h.functionWith⟩

/-- Lowering keeps every law of code. -/
theorem obey_parts (L : CodeLaw names) (fuel : Nat) : L.Obey False (parts fuel) (parts fuel) := by
  induction fuel with
  | zero =>
    exact ⟨fun c e s _ _ => .of_fails fail_ok, fun c x s _ _ _ => .of_fails fail_ok,
      fun c f s _ _ => .of_fails fail_ok⟩
  | succ fuel ih => exact ih.layer nofun

end CodeLaw

end Lowering

end ScriptOptimizer
