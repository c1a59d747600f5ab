import ScriptOptimizer.Proofs.Hoisting

/-!
# Runs of resolution

What resolution does to a tree, as a relation: the nodes that it resolves one after another, at which place
and with which names. Every successful resolution is such a run, so what holds of all of them is shown by
induction over runs.
-/

namespace ScriptOptimizer

/-- A declaration whose names belong to the scope in which it stands. -/
def Stmt.isLexical : Stmt → Bool
  | .varDecl d => d.kind != .var
  | _ => false

/-- An expression that is neither a name nor a function. -/
def Expr.isOperation : Expr → Bool
  | ident .. | function .. => false
  | _ => true

namespace Stmt

/-- A statement that declares nothing and opens no scope. -/
def isSimple : Stmt → Bool
  | .hole | .varDecl _ | .function .. | .block .. | .forLoop .. | .forIn .. | .labeled .. => false
  | _ => true

def isLoop : Stmt → Bool
  | .whileLoop .. | .doWhile .. => true
  | _ => false

/-- The parts of a simple statement, in the order in which they are resolved. -/
def steps : Stmt → List Node
  | .ifElse _ t a b => .expr t :: (a :: b.toList).map .stmt
  | .whileLoop _ t a => [.expr t, .stmt a]
  | .doWhile _ a t => [.stmt a, .expr t]
  | .returnValue _ e => e.toList.map .expr
  | .throwValue _ e | .expr _ e => [.expr e]
  | _ => []

variable {s : Stmt}

theorem mem_steps (hs : s.isSimple = true) {v : Node} :
    v ∈ s.steps ↔ (∃ e, e ∈ s.exprs ∧ v = .expr e) ∨ ∃ a, a ∈ s.stmts ∧ v = .stmt a := by
  cases s <;> simp_all [isSimple, steps, exprs, stmts, eq_comm, or_comm]

theorem decl?_of_isSimple (hs : s.isSimple = true) : s.decl? = none := by
  cases s <;> first | rfl | cases hs

theorem isLexical_of_isSimple (hs : s.isSimple = true) : s.isLexical = false := by
  cases s <;> simp_all [isSimple, isLexical]

end Stmt

namespace Node

/-- The names that a node itself writes. -/
def writes : Node → List String
  | expr (.assign _ _ t _) | expr (.update _ _ _ t) => (Lowering.identName? t).toList
  | stmt (.varDecl d) => (d.decls.filter fun y => y.init.isSome || d.kind != .var).map (·.name)
  | _ => []

/-- A rule on the nodes inside a node that is a part of another. -/
def Within (P : Node → Prop) : Node → Prop
  | expr e => e.All P
  | stmt s => s.All P
  | param x => ∀ e, x.default = some e → e.All P
  | declarator d => P (.declarator d) ∧ ∀ e, d.init = some e → e.All P
  | _ => True

/-- A function where it stands. -/
def ofFunc (pos : Position) (f : Func) : Bool → Node
  | true => .expr (.function pos f)
  | false => .stmt (.function pos f)

/-- What resolution leaves of a node as it is. -/
def Alike : Node → Node → Prop
  | expr _, expr _ => True
  | stmt s, stmt s' => isPlainStart s' = isPlainStart s ∧ s'.isLexical = s.isLexical
  | param x, param x' => x'.name = x.name ∧ x'.pattern = x.pattern
  | declarator d, declarator d' => d'.name = d.name ∧ d.pattern = none ∧ d'.pattern = none
  | _, _ => False

end Node

namespace Resolution

/-- The names of a script before anything is declared. -/
def initial : Names :=
  { scopes := #[{ owner := topFunc, isFunction := true, outer := [] }]
    functions := #[{ name := "", parent := none, scope := 0 }] }

/-- What an expression is made into when its parts are resolved. -/
structure Rebuilt (e : Expr) : Prop where
  result : e.isOperation = true
  writes : ∀ z, z ∈ (Node.expr e).writes → ∃ pos, .ident pos z ∈ e.parts

theorem Rebuilt.quiet {e : Expr} (result : e.isOperation = true) (hwrites : (Node.expr e).writes = []) : Rebuilt e :=
  ⟨result, fun z hz => by
    rw [hwrites] at hz
    cases hz⟩

/-- Names with a new function at a place. -/
def openFunction (p : Place) (name : String) (isExpression : Bool) (n : Names) : Names :=
  let (m, scope) := n.openFunction (some p.scope) n.functions.size
  { m with functions := m.functions.push { name, parent := some p.func, isExpression, scope } }

/-- The start of a function: its parameters, what its body declares, and its own name. -/
def Enters (p : Place) (isExpression : Bool) (f : Func) (n n' : Names) : Prop :=
  ∃ n1 n2 u1 u2,
    f.params.forM (declareParam n.scopes.size n.functions.size)
      ((openFunction p f.name isExpression n).reserve f.name) = .ok (u1, n1) ∧
    hoistFunction n.scopes.size p.inLoop f.body n1 = .ok (u2, n2) ∧
    declareSelf n.scopes.size f isExpression n2 = .ok ((), n')

/-- The head of a loop over keys or values. -/
def EntersEach (p : Place) (decl : Option VarDecl) (target : Option Expr) (head : Option ScopeId)
    (n n' : Names) : Prop :=
  (∃ d, decl = some d ∧ loopDecl p d n = .ok (head, n')) ∨
    decl = none ∧ head = none ∧ loopTarget p (target.getD .hole) n = .ok ((), n')

/-- The place of the parts of a simple statement. -/
def Place.within (p : Place) (s : Stmt) : Place := bif s.isLoop then { p with inLoop := true } else p

/-- Nodes that are resolved one after another at a place. -/
inductive Runs : Place → List Node → Names → List Node → Names → Prop where
  | nil {p n} : Runs p [] n [] n
  | append {p vs vs' ws ws' n n1 n'} (first : Runs p vs n vs' n1) (rest : Runs p ws n1 ws' n') :
    Runs p (vs ++ ws) n (vs' ++ ws') n'
  | name {p pos name isWrite n n'} (refers : reference p name isWrite n = .ok ((), n')) :
    Runs p [.expr (.ident pos name)] n [.expr (.ident pos name)] n'
  | expr {p e e' n n'} (rebuilt : Rebuilt e') (parts : Runs p (e.parts.map .expr) n (e'.parts.map .expr) n') :
    Runs p [.expr e] n [.expr e'] n'
  | function {p pos isExpression f params body n n1 n2 n'} (enters : Enters p isExpression f n n1)
    (code : Runs { func := n.functions.size, scope := n.scopes.size }
      (f.params.map .param ++ f.body.map .stmt) n1 (params.map .param ++ body.map .stmt) n2)
    (pins : pinParams n.scopes.size n.functions.size f.params n2 = .ok ((), n')) :
    Runs p [.ofFunc pos f isExpression] n
      [.ofFunc pos { f with id := some n.functions.size, params, body } isExpression] n'
  | param {p x default n n'} (value : Runs p (x.default.toList.map .expr) n (default.toList.map .expr) n') :
    Runs p [.param x] n [.param { x with default }] n'
  | unwritten {p d n} (pattern : d.pattern = none) (init : d.init = none) :
    Runs p [.declarator d] n [.declarator d] (n.reserve d.name)
  | written {p d e e' n n1 n'} (pattern : d.pattern = none) (init : d.init = some e)
    (value : Runs p [.expr e] n [.expr e'] n1) (refers : reference p d.name true n1 = .ok ((), n')) :
    Runs p [.declarator d] n [.declarator { d with init := some e' }] n'
  | varDecl {p d decls n n'} (values : Runs p (d.decls.map .declarator) n (decls.map .declarator) n') :
    Runs p [.stmt (.varDecl d)] n [.stmt (.varDecl { d with decls })] n'
  | block {p pos scope list list' n n1 n'}
    (enters : hoistBlock n.scopes.size p.inLoop list (n.openBlock p.scope).1 = .ok ((), n1))
    (code : Runs { p with scope := n.scopes.size } (list.map .stmt) n1 (list'.map .stmt) n') :
    Runs p [.stmt (.block pos scope list)] n [.stmt (.block pos (some n.scopes.size) list')] n'
  | simple {p s s' n n'} (source : s.isSimple = true) (result : s'.isSimple = true)
    (plain : isPlainStart s' = isPlainStart s) (bodies : ∀ a, a ∈ s.stmts → a.isLexical = false)
    (steps : Runs (p.within s) s.steps n s'.steps n') : Runs p [.stmt s] n [.stmt s'] n'
  | forLoop {p pos scope init init' test test' update update' b b' head n n1 n2 n'}
    (enters : headScope p (init.bind varDecl?) n = .ok (head, n1))
    (start : Runs { p with scope := head.getD p.scope } (init.toList.map .stmt) n1 (init'.toList.map .stmt) n2)
    (body : b.isLexical = false)
    (rest : Runs { p with scope := head.getD p.scope, inLoop := true }
      (test.toList.map .expr ++ (update.toList.map .expr ++ [.stmt b])) n2
      (test'.toList.map .expr ++ (update'.toList.map .expr ++ [.stmt b'])) n') :
    Runs p [.stmt (.forLoop pos scope init test update b)] n [.stmt (.forLoop pos head init' test' update' b')] n'
  | forIn {p pos scope of decl target right right' b b' head n n1 n2 n'}
    (keys : Runs p [.expr right] n [.expr right'] n1) (enters : EntersEach p decl target head n1 n2)
    (body : b.isLexical = false)
    (rest : Runs { p with scope := head.getD p.scope, inLoop := true } [.stmt b] n2 [.stmt b'] n') :
    Runs p [.stmt (.forIn pos scope of decl target right b)] n
      [.stmt (.forIn pos head of decl target right' b')] n'

variable {α β : Type} {n n' : Names} {p : Place} {vs vs' ws : List Node}

/-- Every resolved node comes from one that it is like. -/
theorem Runs.alike (h : Runs p vs n vs' n') : ∀ v', v' ∈ vs' → ∃ v, v ∈ vs ∧ v.Alike v' := by
  have single {v v' : Node} (h : v.Alike v') : ∀ w', w' ∈ [v'] → ∃ w, w ∈ [v] ∧ w.Alike w' :=
    List.forall_mem_singleton.mpr ⟨v, List.mem_singleton_self v, h⟩
  induction h with
  | nil => exact List.forall_mem_nil _
  | append _ _ first rest =>
    refine List.forall_mem_append.mpr ⟨fun v' hv' => ?_, fun v' hv' => ?_⟩
    · obtain ⟨v, hv, h⟩ := first v' hv'
      exact ⟨v, List.mem_append_left _ hv, h⟩
    · obtain ⟨v, hv, h⟩ := rest v' hv'
      exact ⟨v, List.mem_append_right _ hv, h⟩
  | name | expr => exact single trivial
  | @function _ _ isExpression =>
    cases isExpression <;> exact single (by simp [Node.ofFunc, Node.Alike, isPlainStart, Stmt.isLexical])
  | param => exact single ⟨rfl, rfl⟩
  | unwritten pattern | written pattern => exact single ⟨rfl, pattern, pattern⟩
  | varDecl | block | forLoop | forIn => exact single ⟨rfl, rfl⟩
  | simple source result plain =>
    exact single ⟨plain, by rw [Stmt.isLexical_of_isSimple source, Stmt.isLexical_of_isSimple result]⟩

theorem Runs.alike_stmt (h : Runs p vs n vs' n') {s' : Stmt} (hs : .stmt s' ∈ vs') :
    ∃ s, .stmt s ∈ vs ∧ isPlainStart s' = isPlainStart s ∧ s'.isLexical = s.isLexical := by
  obtain ⟨v, hv, halike⟩ := h.alike _ hs
  cases v with
  | stmt s => exact ⟨s, hv, halike⟩
  | _ => cases halike

theorem Runs.alike_param (h : Runs p vs n vs' n') {x' : Param} (hx : .param x' ∈ vs') :
    ∃ x, .param x ∈ vs ∧ x'.name = x.name ∧ x'.pattern = x.pattern := by
  obtain ⟨v, hv, halike⟩ := h.alike _ hx
  cases v with
  | param x => exact ⟨x, hv, halike⟩
  | _ => cases halike

/-! ## Runs of the resolution of a node -/

/-- What an action resolves, and what holds then of the resolved nodes and its result. -/
def Does (p : Place) (vs : List Node) (x : Resolve α) (Q : List Node → α → Prop) : Prop :=
  ∀ ⦃n a n'⦄, x n = .ok (a, n') → ∃ vs', Runs p vs n vs' n' ∧ Q vs' a

/-- An action that resolves nodes and returns them, if a condition holds. -/
abbrev Gives (p : Place) (vs : List Node) (x : Resolve α) (g : α → List Node) (C : Prop := True) : Prop :=
  Does p vs x fun vs' a => vs' = g a ∧ C

variable {x : Resolve α} {f : α → Resolve β} {g : α → List Node} {C : Prop}

theorem Does.pure {Q : List Node → α → Prop} {a : α} (h : Q [] a) : Does p [] (pure a) Q := by
  intro n b n' hs
  cases hs
  exact ⟨[], .nil, h⟩

theorem Does.bind {Q : List Node → β → Prop} (h : Gives p vs x g C)
    (k : C → ∀ a, Does p ws (f a) fun ws' b => Q (g a ++ ws') b) : Does p (vs ++ ws) (x >>= f) Q := by
  intro n b n' hs
  obtain ⟨a, n1, e1, h1⟩ := bind_ok hs
  obtain ⟨_, hfirst, rfl, hC⟩ := h e1
  obtain ⟨ws', hrest, hQ⟩ := k hC a h1
  exact ⟨_, .append hfirst hrest, hQ⟩

theorem Does.cons {v : Node} {Q : List Node → β → Prop} (h : Gives p [v] x g C)
    (k : C → ∀ a, Does p ws (f a) fun ws' b => Q (g a ++ ws') b) : Does p (v :: ws) (x >>= f) Q := h.bind k

/-- The last nodes that are resolved for a result. -/
theorem Does.last {r : α → β} {Q : List Node → β → Prop} (h : Gives p vs x g C) (k : C → ∀ a, Q (g a) (r a)) :
    Does p vs (do return r (← x)) Q := by
  intro n b n' hs
  obtain ⟨a, n1, e1, h1⟩ := bind_ok hs
  cases h1
  obtain ⟨_, hrun, rfl, hC⟩ := h e1
  exact ⟨_, hrun, k hC a⟩

/-- A check in front of an action. -/
theorem Does.behind {Q : List Node → β → Prop} (hx : ∀ {n a n'}, x n = .ok (a, n') → n' = n ∧ C)
    (k : C → ∀ a, Does p vs (f a) Q) : Does p vs (x >>= f) Q := by
  intro n b n' hs
  obtain ⟨a, n1, e1, h1⟩ := bind_ok hs
  obtain ⟨rfl, hC⟩ := hx e1
  exact k hC a h1

theorem Gives.list {r : β → List Node} {s : α → List Node} {f : α → Resolve β}
    (h : ∀ a, Gives p (s a) (f a) r) (as : List α) : Gives p (as.flatMap s) (as.mapM f) (·.flatMap r) := by
  induction as with
  | nil => exact .pure ⟨rfl, trivial⟩
  | cons a as ih =>
    rw [List.mapM_cons, List.flatMap_cons]
    exact (h a).bind fun _ b => ih.last fun _ bs => ⟨List.flatMap_cons.symm, trivial⟩

section

variable {r : β → Node} {s : α → Node} {f : α → Resolve β}

theorem Gives.map (h : ∀ a, Gives p [s a] (f a) fun b => [r b]) (as : List α) :
    Gives p (as.map s) (as.mapM f) (·.map r) := by
  simp only [List.map_eq_flatMap]
  exact list h as

theorem Gives.opt {C : α → Prop} (h : ∀ a, Gives p [s a] (f a) (fun b => [r b]) (C a)) (a : Option α) :
    Gives p (a.toList.map s) (a.mapM f) (·.toList.map r) (∀ x, x ∈ a.toList → C x) := by
  cases a with
  | none => exact .pure ⟨rfl, List.forall_mem_nil _⟩
  | some a =>
    intro n b n' hs
    obtain ⟨b, e1, rfl⟩ := map_ok (x := f a) hs
    obtain ⟨_, hrun, rfl, hC⟩ := h a e1
    exact ⟨[r b], hrun, rfl, List.forall_mem_singleton.mpr hC⟩

end

def ResolvesExprs (expr : Place → Expr → Resolve Expr) : Prop :=
  ∀ p e, Gives p [.expr e] (expr p e) fun e' => [.expr e']

def ResolvesStmts (stmt : Place → Stmt → Resolve Stmt) : Prop :=
  ∀ p s, Gives p [.stmt s] (stmt p s) fun s' => [.stmt s']

variable {expr : Place → Expr → Resolve Expr} {stmt : Place → Stmt → Resolve Stmt} {e : Expr}

theorem Gives.operation {x : Resolve Expr}
    (h : Does p (e.parts.map .expr) x fun vs' e' => vs' = e'.parts.map .expr ∧ Rebuilt e') :
    Gives p [.expr e] x fun e' => [.expr e'] := by
  intro n e' n' hs
  obtain ⟨_, hrun, rfl, hrebuilt⟩ := h hs
  exact ⟨_, .expr hrebuilt hrun, rfl, trivial⟩

theorem refuseSpread_ok {what : Unsupported} {u : Unit} (h : refuseSpread what e n = .ok (u, n')) : n' = n ∧ True := by
  unfold refuseSpread at h
  split at h
  · cases h
  · cases h
    exact ⟨rfl, trivial⟩

namespace ResolvesExprs

/-- The target of an assignment or an update. -/
theorem target (h : ResolvesExprs expr) (p : Place) (t : Expr) :
    Gives p [.expr t] (target (expr p) p t) fun t' => [.expr t'] := by
  intro n t' n' hs
  unfold Resolution.target at hs
  split at hs
  · obtain ⟨_, n1, e1, h1⟩ := bind_ok hs
    cases h1
    exact ⟨_, .name e1, rfl, trivial⟩
  · exact h p _ hs
  · exact h p _ hs
  · cases hs
  · cases hs
  · cases hs

theorem property (h : ResolvesExprs expr) (p : Place) (x : Property) :
    Gives p ((Lowering.memberExprs x).map .expr) (property (expr p) x) fun y => (Lowering.memberExprs y).map .expr := by
  cases x with
  | spread =>
    nofun
  | computed pos k v => exact (h p k).cons fun _ k' => (h p _).last fun _ v' => ⟨rfl, trivial⟩
  | named pos k v => exact (h p _).last fun _ v' => ⟨rfl, trivial⟩

/-- A list whose members must not be spread. -/
theorem unspread (h : ResolvesExprs expr) (p : Place) (what : Unsupported) (es : List Expr) :
    Gives p (es.map .expr) (es.mapM fun x => do
      refuseSpread what x
      expr p x) (·.map .expr) :=
  Gives.map (fun a => Does.behind refuseSpread_ok fun _ _ => h p a) es

theorem call (h : ResolvesExprs expr) (p : Place) (c : Expr) (es : List Expr) :
    Gives p ((c :: es).map .expr) (call (expr p) c es) fun r => (r.1 :: r.2).map .expr :=
  (h p c).cons fun _ _ => (h.unspread p _ es).last fun _ _ => ⟨rfl, trivial⟩

end ResolvesExprs

/-- Functions, given how their expressions and statements are resolved. -/
theorem ResolvesExprs.function (h : ResolvesExprs expr) (k : ResolvesStmts stmt) (p : Place) (pos : Position)
    (isExpression : Bool) (f : Func) :
    Gives p [.ofFunc pos f isExpression] (function expr stmt p isExpression f)
      fun f' => [.ofFunc pos f' isExpression] := by
  intro n f' n' hs
  unfold Resolution.function at hs
  dsimp only at hs
  split at hs
  · obtain ⟨_, m1, e1, -⟩ := bind_ok hs
    cases e1
  obtain ⟨m, n1, e1, h1⟩ := bind_ok hs
  cases e1
  obtain ⟨_, n1, e1, h1⟩ := bind_ok h1
  cases e1
  obtain ⟨_, n2, e2, h2⟩ := bind_ok h1
  cases e2
  obtain ⟨_, n3, e3, h3⟩ := bind_ok h2
  obtain ⟨_, n4, e4, h4⟩ := bind_ok h3
  obtain ⟨_, n5, e5, h5⟩ := bind_ok h4
  obtain ⟨params, n6, e6, h6⟩ := bind_ok h5
  obtain ⟨body, n7, e7, h7⟩ := bind_ok h6
  obtain ⟨_, n8, e8, h8⟩ := bind_ok h7
  cases h8
  have hparam (q : Place) (x : Param) : Gives q [.param x]
      (do return { x with default := ← x.default.mapM (expr q) }) fun y => [.param y] := by
    intro n y n' hs
    obtain ⟨d, m, e1, h1⟩ := bind_ok hs
    cases h1
    obtain ⟨_, hrun, rfl, -⟩ := Gives.opt (h q) x.default e1
    exact ⟨_, .param hrun, rfl, trivial⟩
  obtain ⟨_, hparams, rfl, -⟩ := Gives.map (hparam _) f.params e6
  obtain ⟨_, hbody, rfl, -⟩ := Gives.map (k _) f.body e7
  exact ⟨_, .function ⟨_, _, _, _, e3, e4, e5⟩ (.append hparams hbody) e8, rfl, trivial⟩

private theorem ident_mem {z : String} {es : List Expr} (h : z ∈ (Lowering.identName? e).toList) :
    ∃ pos, .ident pos z ∈ e :: es := by
  cases e <;> simp_all [Lowering.identName?]

/-- Resolving expressions, given that their parts are resolved. -/
theorem resolvesExprs_succ {depth : Nat} (h : ResolvesExprs (Resolution.expr depth))
    (k : ResolvesStmts (Resolution.stmt depth)) : ResolvesExprs (Resolution.expr (depth + 1)) := by
  intro p e
  unfold Resolution.expr
  cases e with
  | hole | spread =>
    nofun
  | ident pos name =>
    intro n e' n' hs
    obtain ⟨_, n1, e1, h1⟩ := bind_ok hs
    cases h1
    exact ⟨_, .name e1, rfl, trivial⟩
  | literal | receiver | raw => exact .operation (.pure ⟨rfl, .quiet rfl rfl⟩)
  | array pos es => exact .operation ((h.unspread p _ es).last fun _ es' => ⟨rfl, .quiet rfl rfl⟩)
  | object pos ps =>
    refine .operation ?_
    change Does p ((ps.flatMap Lowering.memberExprs).map .expr) _ _
    rw [List.map_flatMap]
    exact (Gives.list (h.property p) ps).last fun _ ps' => ⟨(List.map_flatMap ..).symm, .quiet rfl rfl⟩
  | function pos f => exact (h.function k p pos true f).last fun _ _ => ⟨rfl, trivial⟩
  | unary pos op x | member pos x name => exact .operation ((h p x).last fun _ x' => ⟨rfl, .quiet rfl rfl⟩)
  | update pos op i x =>
    exact .operation ((h.target p x).last fun _ x' => ⟨rfl, rfl, fun _ => ident_mem⟩)
  | binary pos op l r | logical pos op l r | index pos l r =>
    exact .operation ((h p l).cons fun _ l' => (h p r).last fun _ r' => ⟨rfl, .quiet rfl rfl⟩)
  | assign pos op t v =>
    exact .operation ((h.target p t).cons fun _ t' => (h p v).last fun _ v' => ⟨rfl, rfl, fun _ => ident_mem⟩)
  | conditional pos t a b =>
    exact .operation ((h p t).cons fun _ t' => (h p a).cons fun _ a' => (h p b).last fun _ b' =>
      ⟨rfl, .quiet rfl rfl⟩)
  | call pos c es => exact .operation ((h.call p c es).last fun _ r => ⟨rfl, .quiet rfl rfl⟩)
  | construct pos c es => exact .operation ((h.call p c (es.getD [])).last fun _ r => ⟨rfl, .quiet rfl rfl⟩)
  | sequence pos es => exact .operation ((Gives.map (h p) es).last fun _ es' => ⟨rfl, .quiet rfl rfl⟩)

/-! ## Statements -/

variable {s : Stmt}

/-- A simple statement, from its parts. -/
theorem Gives.simple {x : Resolve Stmt}
    (h : Does (p.within s) s.steps x fun vs' s' => vs' = s'.steps ∧ s'.isSimple = true ∧
      isPlainStart s' = isPlainStart s ∧ ∀ a, a ∈ s.stmts → a.isLexical = false)
    (hs : s.isSimple = true) : Gives p [.stmt s] x fun s' => [.stmt s'] := by
  intro n s' n' e
  obtain ⟨_, hrun, rfl, hresult, hplain, hbodies⟩ := h e
  exact ⟨_, .simple hs hresult hplain hbodies hrun, rfl, trivial⟩

theorem checkBody_ok {u : Unit} (h : checkBody s n = .ok (u, n')) : n' = n ∧ s.isLexical = false := by
  unfold checkBody at h
  split at h
  · split at h
    · next hkind =>
      cases h
      exact ⟨rfl, by simp [Stmt.isLexical, hkind]⟩
    · cases h
  · cases h
  · next hdecl _ =>
    cases h
    exact ⟨rfl, by cases s <;> first | rfl | exact absurd rfl (hdecl _)⟩

namespace ResolvesStmts

/-- The body of a conditional or a loop. -/
theorem body (k : ResolvesStmts stmt) (p : Place) (s : Stmt) : Gives p [.stmt s] (do
      checkBody s
      stmt p s) (fun s' => [.stmt s']) (s.isLexical = false) :=
  .behind checkBody_ok fun hC _ n s' n' e => by
    obtain ⟨vs', hrun, heq, -⟩ := k p s e
    exact ⟨vs', hrun, heq, hC⟩

end ResolvesStmts

theorem ResolvesExprs.declarators (h : ResolvesExprs expr) (p : Place) (kind : VarKind) (ds : List Declarator) :
    Gives p (ds.map .declarator) (declarators (expr p) p kind ds) (·.map .declarator) := by
  refine Gives.map (fun d n d' n' hs => ?_) ds
  split at hs
  · obtain ⟨_, m1, e1, -⟩ := bind_ok hs
    cases e1
  next hpattern =>
  have hpattern := Option.not_isSome_iff_eq_none.mp hpattern
  cases hinit : d.init with
  | some e =>
    simp only [hinit] at hs
    obtain ⟨e', n1, e1, h1⟩ := bind_ok hs
    obtain ⟨_, n2, e2, h2⟩ := bind_ok h1
    cases h2
    obtain ⟨_, hrun, rfl, -⟩ := h p e e1
    exact ⟨_, .written hpattern hinit hrun e2, rfl, trivial⟩
  | none =>
    simp only [hinit] at hs
    split at hs
    · obtain ⟨_, m1, e1, -⟩ := bind_ok hs
      cases e1
    · cases hs
      exact ⟨_, .unwritten hpattern hinit, rfl, trivial⟩

/-- Resolving statements, given that their parts are resolved. -/
theorem resolvesStmts_succ {depth : Nat} (h : ResolvesExprs (Resolution.expr depth))
    (k : ResolvesStmts (Resolution.stmt depth)) : ResolvesStmts (Resolution.stmt (depth + 1)) := by
  intro p s
  unfold Resolution.stmt
  cases s with
  | hole | labeled =>
    nofun
  | varDecl d =>
    intro n s' n' hs
    obtain ⟨ds, n1, e1, h1⟩ := bind_ok hs
    cases h1
    obtain ⟨_, hrun, rfl, -⟩ := h.declarators p d.kind d.decls e1
    exact ⟨_, .varDecl hrun, rfl, trivial⟩
  | function pos f => exact (h.function k p pos false f).last fun _ _ => ⟨rfl, trivial⟩
  | block pos scope list =>
    intro n s' n' hs
    obtain ⟨t, n1, e1, h1⟩ := bind_ok hs
    cases e1
    obtain ⟨_, n2, e2, h2⟩ := bind_ok h1
    obtain ⟨list', n3, e3, h3⟩ := bind_ok h2
    cases h3
    obtain ⟨_, hrun, rfl, -⟩ := Gives.map (k _) list e3
    exact ⟨_, .block e2 hrun, rfl, trivial⟩
  | ifElse pos t a b =>
    refine .simple ((h p t).cons fun _ t' => (k.body p a).cons fun ha a' => (Gives.opt (k.body p) b).last
      fun hb b' => ⟨rfl, rfl, rfl, List.forall_mem_cons.mpr ⟨ha, hb⟩⟩) rfl
  | forLoop pos scope init test update b =>
    intro n s' n' hs
    obtain ⟨head, n1, e1, h1⟩ := bind_ok hs
    obtain ⟨init', n2, e2, h2⟩ := bind_ok h1
    obtain ⟨test', n3, e3, h3⟩ := bind_ok h2
    obtain ⟨update', n4, e4, h4⟩ := bind_ok h3
    obtain ⟨b', n5, e5, h5⟩ := bind_ok h4
    cases h5
    obtain ⟨_, hinit, rfl, -⟩ := Gives.opt (k _) init e2
    obtain ⟨_, htest, rfl, -⟩ := Gives.opt (h _) test e3
    obtain ⟨_, hupdate, rfl, -⟩ := Gives.opt (h _) update e4
    obtain ⟨_, hbody, rfl, hb⟩ := k.body _ b e5
    exact ⟨_, .forLoop e1 hinit hb (.append htest (.append hupdate hbody)), rfl, trivial⟩
  | forIn pos scope of decl target right b =>
    intro n s' n' hs
    obtain ⟨right', n1, e1, h1⟩ := bind_ok hs
    obtain ⟨_, hright, rfl, -⟩ := h p right e1
    cases decl with
    | some d =>
      obtain ⟨head, n2, e2, h2⟩ := bind_ok h1
      obtain ⟨b', n3, e3, h3⟩ := bind_ok h2
      cases h3
      obtain ⟨_, hbody, rfl, hb⟩ := k.body _ b e3
      exact ⟨_, .forIn hright (.inl ⟨d, rfl, e2⟩) hb hbody, rfl, trivial⟩
    | none =>
      obtain ⟨_, n2, e2, h2⟩ := bind_ok h1
      obtain ⟨head, n3, e3, h3⟩ := bind_ok h2
      cases e3
      obtain ⟨b', n4, e4, h4⟩ := bind_ok h3
      cases h4
      obtain ⟨_, hbody, rfl, hb⟩ := k.body _ b e4
      exact ⟨_, .forIn hright (.inr ⟨rfl, rfl, e2⟩) hb hbody, rfl, trivial⟩
  | whileLoop pos t b =>
    exact .simple ((h _ t).cons fun _ t' => (k.body _ b).last
      fun hb b' => ⟨rfl, rfl, rfl, List.forall_mem_singleton.mpr hb⟩) rfl
  | doWhile pos b t =>
    exact .simple ((k.body _ b).cons fun hb b' => (h _ t).last
      fun _ t' => ⟨rfl, rfl, rfl, List.forall_mem_singleton.mpr hb⟩) rfl
  | returnValue pos arg =>
    exact .simple ((Gives.opt (h p) arg).last fun _ arg' => ⟨rfl, rfl, rfl, List.forall_mem_nil _⟩) rfl
  | throwValue pos arg | expr pos arg =>
    exact .simple ((h p arg).last fun _ arg' => ⟨rfl, rfl, rfl, List.forall_mem_nil _⟩) rfl
  | breakLoop pos label | continueLoop pos label =>
    dsimp only
    split
    · exact .simple (.pure ⟨rfl, rfl, rfl, List.forall_mem_nil _⟩) rfl
    · nofun
  | empty pos => exact .simple (.pure ⟨rfl, rfl, rfl, List.forall_mem_nil _⟩) rfl

/-- Resolving expressions and statements of any nesting. -/
theorem resolves (depth : Nat) : ResolvesExprs (Resolution.expr depth) ∧ ResolvesStmts (Resolution.stmt depth) := by
  induction depth with
  | zero =>
    refine ⟨fun p e n e' n' hs => ?_, fun p s n s' n' hs => ?_⟩
    · unfold Resolution.expr at hs
      cases hs
    · unfold Resolution.stmt at hs
      cases hs
  | succ depth ih => exact ⟨resolvesExprs_succ ih.1 ih.2, resolvesStmts_succ ih.1 ih.2⟩

/-- The resolution of a script is a run over its statements. -/
theorem script_runs {s r : Script} (h : (Resolution.script s).run {} = .ok (r, n')) :
    ∃ n1 n2 u1 u2, hoistFunction 0 false s.body initial = .ok (u1, n1) ∧ declareGlobals 0 n1 = .ok (u2, n2) ∧
      Runs { func := topFunc, scope := 0 } (s.body.map .stmt) n2 (r.body.map .stmt) n' := by
  obtain ⟨_, n1, e1, h1⟩ := bind_ok h
  cases e1
  obtain ⟨_, n2, e2, h2⟩ := bind_ok h1
  obtain ⟨_, n3, e3, h3⟩ := bind_ok h2
  obtain ⟨body, n4, e4, h4⟩ := bind_ok h3
  cases h4
  obtain ⟨_, hrun, rfl, -⟩ := Gives.map ((resolves maxDepth).2 _) s.body e4
  exact ⟨_, _, _, _, e2, e3, hrun⟩

end Resolution

end ScriptOptimizer
