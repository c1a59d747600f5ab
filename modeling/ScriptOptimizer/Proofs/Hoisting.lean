import ScriptOptimizer.Proofs.ClosedScopes
import ScriptOptimizer.Proofs.Trees

/-!
# Names and hoisting

Resolving a part of a script changes its names in steps that keep them in order. A reference spells its
name. What a body declares is declared before the body is resolved, which then spells it.
-/

namespace ScriptOptimizer

variable {name : String}

namespace Resolution

variable {α β : Type} {n n' : Names}

theorem bind_ok {x : Resolve α} {f : α → Resolve β} {b : β} (h : (x >>= f) n = .ok (b, n')) :
    ∃ a n1, x n = .ok (a, n1) ∧ f a n1 = .ok (b, n') := by
  simp only [bind, StateT.bind, Except.bind] at h
  split at h
  · cases h
  · next r hr => exact ⟨r.1, r.2, hr, h⟩

theorem map_ok {x : Resolve α} {f : α → β} {b : β} (h : (f <$> x) n = .ok (b, n')) :
    ∃ a, x n = .ok (a, n') ∧ b = f a := by
  simp only [Functor.map, StateT.map, bind, Except.bind] at h
  split at h
  · cases h
  · next r hr =>
    cases h
    exact ⟨r.1, hr, rfl⟩

end Resolution

/-- The names that a node itself spells. -/
def Node.names : Node → List String
  | .expr (.ident _ x) => [x]
  | .func f => if f.name = "" then [] else [f.name]
  | .declarator d => [d.name]
  | .param x => [x.name]
  | _ => []

/-- The names of a node satisfy a condition. -/
def Node.Refers (Q : String → Prop) (v : Node) : Prop := ∀ x, x ∈ v.names → Q x

theorem Node.Refers.func {Q : String → Prop} {f : Func} (h : (Node.func f).Refers Q) : f.name = "" ∨ Q f.name := by
  by_cases hname : f.name = ""
  · exact .inl hname
  · exact .inr (h f.name (by simp [names, hname]))

namespace Names

variable {Q R : String → Prop} {n n' n'' : Names}

/-- Whether the script spells the own name of a function and, for a function expression, gives it a
binding. -/
def NamesItself (n : Names) (f : FuncId) : Prop :=
  n.Spells (n.function f).name ∧ ((n.function f).isExpression = true → (n.function f).name ≠ "" →
    ∃ b, n.lookup (n.function f).scope (n.function f).name = some b)

theorem NamesItself.mono (hg : n.Grows n') (hn : n.Scoped) (hn' : n'.Scoped) {f : FuncId}
    (hf : f < n.functions.size) (h : n.NamesItself f) : n'.NamesItself f := by
  unfold NamesItself
  rw [hg.function_name hf, hg.function_scope hf, hg.isExpression hf]
  refine ⟨hg.spells h.1, fun hx hname => ?_⟩
  obtain ⟨b, hb⟩ := h.2 hx hname
  exact ⟨b, hg.lookup hn hn' hb⟩

/-- What resolving a part of a script does to its names: steps that declare spelled names only, behind
which the new functions have their names. -/
structure Resolves (Q : String → Prop) (n n' : Names) : Prop where
  start : n.Scoped
  steps : Steps Q n'.Spells n.scopes.size n n'
  selves : ∀ {f}, n.functions.size ≤ f → f < n'.functions.size → n'.NamesItself f

namespace Resolves

theorem grows (h : Resolves Q n n') : n.Grows n' := .of_steps h.steps

theorem later (h : Resolves Q n n') : n.Later n' := .of_steps h.start (Nat.le_refl _) h.steps

theorem last (h : Resolves Q n n') : n'.Scoped := h.later.last

theorem refl (h : n.Scoped) : Resolves Q n n :=
  ⟨h, .refl, fun hle hlt => absurd hlt (Nat.not_lt_of_le hle)⟩

/-- Steps that open no function, in front of a part of a script. -/
theorem behind (h : n.Scoped) (hs : Steps Q n''.Spells n.scopes.size n n')
    (hf : n'.functions.size = n.functions.size) (k : Resolves Q n' n'') : Resolves Q n n'' :=
  ⟨h, hs.trans (k.steps.mono (fun _ => id) (Grows.of_steps hs).scopes_le),
    fun hle hlt => k.selves (hf.symm ▸ hle) hlt⟩

theorem trans (h : Resolves Q n n') (k : Resolves Q n' n'') : Resolves Q n n'' where
  start := h.start
  steps := (h.steps.mono (fun _ => k.grows.spells) (Nat.le_refl _)).trans
    (k.steps.mono (fun _ => id) h.grows.scopes_le)
  selves := by
    intro f hle hlt
    by_cases hf : f < n'.functions.size
    · exact (h.selves hle hf).mono k.grows h.last k.last hf
    · exact k.selves (Nat.le_of_not_lt hf) hlt

theorem of_step (h : n.Scoped) (hs : Step Q n'.Spells n.scopes.size n n') (hf : n'.functions.size = n.functions.size) :
    Resolves Q n n' :=
  ⟨h, .single hs, fun hle hlt => absurd (hf ▸ hlt) (Nat.not_lt_of_le hle)⟩

end Resolves

theorem resolve_name {s : ScopeId} {b : BindingId} (h : n.resolve s name = some b) :
    (n.binding b).name = name := by
  obtain ⟨t, -, ht⟩ := List.exists_of_findSome?_eq_some h
  have hname := List.find?_some ht
  simpa using hname

end Names

namespace Resolution

open Names

variable {α β : Type} {Q R : String → Prop} {n n' : Names} {p : Place}

variable {u : Unit} {body : List Stmt} {inLoop : Bool}

/-- A place stands in a scope of its function. -/
structure Place.Stands (p : Place) (n : Names) : Prop where
  lt : p.scope < n.scopes.size
  owner : (n.scope p.scope).owner = p.func

theorem Place.Stands.mono (hg : n.Grows n') (h : p.Stands n) : p.Stands n' :=
  ⟨Nat.lt_of_lt_of_le h.lt hg.scopes_le, (hg.owner h.lt).trans h.owner⟩

theorem reserve_ok (hs : reserve name n = .ok (u, n')) (hn : n.Scoped) (hQ : name = "" ∨ Q name) :
    Resolves Q n n' ∧ n'.Spells name := by
  cases hs
  refine ⟨.of_step hn (.reserve name hQ) ?_, ?_⟩
  · unfold Names.reserve
    split <;> rfl
  · by_cases hname : name = ""
    · exact .inl hname
    · exact .inr (n.mem_reserve.mpr (.inr ⟨rfl, hname⟩))

theorem pin_ok {b : BindingId} (hs : pin b n = .ok (u, n')) (hn : n.Scoped) (captured : Q (n.binding b).name)
    (isLocal : (n.binding b).isGlobal = true → (n.binding b).scope ≠ 0) :
    Resolves Q n n' ∧ (b < n.bindings.size → (n'.binding b).pinned = true) := by
  unfold pin at hs
  obtain ⟨m, n1, e1, h1⟩ := bind_ok hs
  cases e1
  dsimp only at h1
  split at h1
  · next hpinned =>
    cases h1
    exact ⟨.refl hn, fun _ => hpinned⟩
  · split at h1
    · obtain ⟨_, m1, e1, -⟩ := bind_ok h1
      cases e1
    · next hlasting =>
      cases h1
      refine ⟨.of_step hn (.pin b captured isLocal (if_neg hlasting)) rfl, fun hb => ?_⟩
      rw [binding_modifyBinding, if_pos ⟨rfl, hb⟩]

/-- A reference spells its name. It captures the binding that it means unless the function owns it. -/
theorem reference_ok {isWrite : Bool} (hs : reference p name isWrite n = .ok (u, n')) (hn : n.Scoped)
    (hp : p.Stands n) (hQ : Q name) :
    Resolves Q n n' ∧ n'.Spells name ∧ n'.Held p.func p.scope name := by
  unfold reference at hs
  obtain ⟨_, n1, e1, h1⟩ := bind_ok hs
  obtain ⟨hr1, hspelled⟩ := reserve_ok (Q := Q) e1 hn (.inr hQ)
  obtain ⟨m, n2, e2, h2⟩ := bind_ok h1
  cases e2
  have hp1 := hp.mono hr1.grows
  have hassign {m m' : Names} {u : Unit}
      (h : (modify fun n : Names => if isWrite then { n with assigned := n.assigned.insert name } else n :
        Resolve Unit) m = .ok (u, m')) (hm : m.Scoped) : Resolves Q m m' := by
    cases h
    dsimp only
    split
    · exact .of_step hm (.assign name) rfl
    · exact .refl hm
  have hrest : Resolves Q n1 n' ∧ n'.Held p.func p.scope name := by
    cases hb : n1.resolve p.scope name with
    | none =>
      have hr : Resolves Q n1 n' := by
        simp only [hb] at h2
        split at h2
        · obtain ⟨_, n3, e3, h3⟩ := bind_ok h2
          cases e3
          have hstep := Resolves.of_step (Q := Q) hr1.last (.useArguments p.func) (by simp)
          exact hstep.trans (hassign h3 hstep.last)
        · exact hassign h2 hr1.last
      refine ⟨hr, fun b hb' => ?_⟩
      rw [hr.later.resolve_eq hr1.last hp1.lt, hb] at hb'
      cases hb'
    | some b =>
      have hlt := hr1.last.lt_of_resolve hb
      have held (hr : Resolves Q n1 n') (h : (n'.binding b).isTracked = true → n1.owner b = p.func) :
          Resolves Q n1 n' ∧ n'.Held p.func p.scope name := by
        refine ⟨hr, fun c hc ht => ?_⟩
        rw [hr.later.resolve_eq hr1.last hp1.lt, hb] at hc
        cases hc
        rw [hr.later.owner_eq hr1.last hlt]
        exact h ht
      simp only [hb] at h2
      split at h2
      · next hglobal =>
        have hr := hassign h2 hr1.last
        refine held hr fun ht => ?_
        simp [Binding.isTracked, hr.later.isGlobal hlt, hglobal] at ht
      · next hglobal =>
        split at h2
        · obtain ⟨hr, hpinned⟩ := pin_ok h2 hr1.last (resolve_name hb ▸ hQ) fun h => absurd h hglobal
          refine held hr fun ht => ?_
          simp [Binding.isTracked, hpinned hlt] at ht
        · next howner =>
          cases h2
          exact held (.refl hr1.last) fun _ => by simpa using howner
  exact ⟨hr1.trans hrest.1, hrest.1.grows.spells hspelled, hrest.2⟩

/-! ## Hoisting -/

/-- The variables that the nodes on a walk declare for the whole function. -/
def varsOf (vs : List Visit) : List Declarator := vs.flatMap fun v => hoistedVars v.node

@[simp] theorem varsOf_nil : varsOf [] = [] := rfl

@[simp] theorem varsOf_append (vs ws : List Visit) : varsOf (vs ++ ws) = varsOf vs ++ varsOf ws := List.flatMap_append

@[simp] theorem varsOf_visit (role : Role) (node : Node) (vs : List Visit) :
    varsOf (Walk.visit isOpen role node vs) = hoistedVars node ++ if isOpen node then varsOf vs else [] := by
  unfold Walk.visit
  split <;> simp [varsOf]

attribute [local simp] isOpen hoistedVars

mutual

private theorem varsOf_expr (role : Role) (e : Expr) : varsOf (Walk.expr isOpen role e) = [] := by
  cases e with
  | hole | function => simp [Walk.expr]
  | ident | literal | receiver | raw => rfl
  | array p es | sequence p es => simp [Walk.expr, varsOf_exprs es]
  | object p ps => simp [Walk.expr, varsOf_properties ps]
  | spread p a | unary p op a | update p op i a | member p a x => simp [Walk.expr, varsOf_expr _ a]
  | binary p op a b | logical p op a b | assign p op a b | index p a b =>
    simp [Walk.expr, varsOf_expr _ a, varsOf_expr _ b]
  | conditional p a b c => simp [Walk.expr, varsOf_expr _ a, varsOf_expr _ b, varsOf_expr _ c]
  | call p a es => simp [Walk.expr, varsOf_expr _ a, varsOf_exprs es]
  | construct p a es =>
    cases es with
    | none => simp [Walk.expr, varsOf_expr _ a]
    | some es => simp [Walk.expr, varsOf_expr _ a, varsOf_exprs es]

private theorem varsOf_exprs (es : List Expr) : varsOf (Walk.exprs isOpen es) = [] := by
  cases es with
  | nil => rfl
  | cons e es => simp [Walk.exprs, varsOf_expr _ e, varsOf_exprs es]

private theorem varsOf_optExpr (role : Role) (e : Option Expr) : varsOf (Walk.optExpr isOpen role e) = [] := by
  cases e with
  | none => rfl
  | some e => exact varsOf_expr role e

private theorem varsOf_properties (ps : List Property) : varsOf (Walk.properties isOpen ps) = [] := by
  cases ps with
  | nil => rfl
  | cons x ps =>
    cases x with
    | spread p e => simp [Walk.properties, varsOf_expr _ e, varsOf_properties ps]
    | computed p k e => simp [Walk.properties, varsOf_expr _ k, varsOf_optExpr _ e, varsOf_properties ps]
    | named p k e => simp [Walk.properties, varsOf_optExpr _ e, varsOf_properties ps]

end

private theorem varsOf_varDecl (role : Role) (d : VarDecl) :
    varsOf (Walk.varDecl isOpen role d) = hoistedVars (.varDecl d) := by
  have hdecls (ds : List Declarator) : varsOf (Walk.declarators isOpen role ds) = [] := by
    induction ds with
    | nil => rfl
    | cons y ds ih => cases y; simp [Walk.declarators, varsOf_optExpr, ih]
  cases d
  simp [Walk.varDecl, hdecls]

/-- The variables that a statement declares for the whole function. -/
def vars (s : Stmt) : List Declarator := varsOf (Walk.stmt isOpen s)

private theorem varsOf_stmt (s : Stmt) : varsOf (Walk.stmt isOpen s) = vars s := rfl

private theorem varsOf_stmts (list : List Stmt) : varsOf (Walk.stmts isOpen list) = list.flatMap vars := by
  rw [Walk.stmts_eq, varsOf, List.flatMap_assoc]
  rfl

/-- A statement declares what its declaration and the statements in it declare. -/
theorem vars_eq (s : Stmt) :
    vars s = (s.decl?.toList.flatMap fun d => hoistedVars (.varDecl d)) ++ s.stmts.flatMap vars := by
  rw [vars]
  cases s with
  | ifElse p e a b => cases b <;> simp [Walk.stmt, Stmt.decl?, Stmt.stmts, varsOf_expr, varsOf_stmt]
  | forLoop p scope init t u a =>
    cases init <;> simp [Walk.stmt, Stmt.decl?, Stmt.stmts, varsOf_optExpr, varsOf_stmt]
  | forIn p scope of d t e a =>
    cases d <;> simp [Walk.stmt, Stmt.decl?, Stmt.stmts, varsOf_optExpr, varsOf_expr, varsOf_stmt, varsOf_varDecl]
  | breakLoop | continueLoop | empty => rfl
  | _ =>
    simp [Walk.stmt, Stmt.decl?, Stmt.stmts, varsOf_optExpr, varsOf_expr, varsOf_stmt, varsOf_stmts, varsOf_varDecl]

/-! ## Entries -/

/-- A declaration of a name that is neither a parameter nor the own name of a function. A name that cannot be
read before its declaration has a mark that says whether a loop is open there. -/
structure Entry where
  name : String
  kind : BindingKind
  pos : Position
  inLoop : Option Bool := none
  isOrdinary : kind ≠ .param ∧ kind ≠ .self

/-- Enters a declaration in a scope. -/
def enter (s : ScopeId) (n : Names) (d : Entry) : Names :=
  match d.inLoop with
  | none => (n.declare s d.name d.kind d.pos).1
  | some inLoop => n.addLexical s d.name d.kind d.pos inLoop

variable {s k : ScopeId} {d : Entry} {ds : List Entry}

theorem step_enter (hk : k ≤ s) (hs : s < n.scopes.size) (hR : R d.name) : Step Q R k n (enter s n d) := by
  unfold enter
  split
  · exact .declare hk hs d.isOrdinary.1 d.isOrdinary.2 hR
  · exact .addLexical _ hk hs d.isOrdinary.1 d.isOrdinary.2 hR

theorem steps_enter (hk : k ≤ s) (hs : s < n.scopes.size) (hR : ∀ d, d ∈ ds → R d.name) :
    Steps Q R k n (ds.foldl (enter s) n) := by
  induction ds generalizing n with
  | nil => exact .refl
  | cons d ds ih =>
    have hstep : Step Q R k n (enter s n d) := step_enter hk hs (hR d List.mem_cons_self)
    exact .head hstep (ih (Nat.lt_of_lt_of_le hs (Grows.of_step hstep).scopes_le)
      fun x hx => hR x (List.mem_cons_of_mem _ hx))

theorem functions_enter (s : ScopeId) (ds : List Entry) (n : Names) :
    (ds.foldl (enter s) n).functions = n.functions := by
  induction ds generalizing n with
  | nil => rfl
  | cons d ds ih =>
    rw [List.foldl_cons, ih]
    unfold enter
    split
    · exact n.functions_declare _ _ _ _
    · exact n.functions_addLexical _ _ _ _ _

/-- A scope has the names that were entered in it. -/
theorem lookup_enter (hn : n.Scoped) (hs : s < n.scopes.size) (hd : d ∈ ds) :
    ((ds.foldl (enter s) n).lookup s d.name).isSome = true := by
  induction ds generalizing n with
  | nil => cases hd
  | cons x ds ih =>
    have hstep : Step (fun _ => True) (fun _ => True) 0 n (enter s n x) := step_enter (Nat.zero_le _) hs trivial
    have hs' := Nat.lt_of_lt_of_le hs (Grows.of_step hstep).scopes_le
    rcases List.mem_cons.mp hd with rfl | hd
    · have hlast := hn.step hstep
      have hrest : Steps (fun _ => True) (fun _ => True) 0 (enter s n d) (ds.foldl (enter s) (enter s n d)) :=
        steps_enter (Nat.zero_le _) hs' fun _ _ => trivial
      have hg : (n.declare s d.name d.kind d.pos).1.Grows (enter s n d) := by
        unfold enter
        split
        · exact .refl _
        · exact .modifyBinding _ _ (fun _ => rfl) (fun _ => rfl) fun _ => id
      refine (hg.trans (Grows.of_steps hrest)).isSome_lookup (hn.declare hs _ _ _) (hlast.steps hrest) ?_
      rw [lookup_declare hn hs]
      rfl
    · exact ih (hn.step hstep) hs' hd

/-- The entry of a variable of a function. -/
def varEntry (d : Declarator) : Entry := ⟨d.name, .var, d.pos, none, by decide⟩

/-- What a statement declares for the list it stands in. -/
def lexicals (inLoop : Bool) : Stmt → List Entry
  | .varDecl d =>
    if d.kind = .var then []
    else d.decls.map fun x =>
      ⟨x.name, if d.kind = .constant then .constant else .lexical, x.pos, some inLoop, by split <;> decide⟩
  | .function pos f => [⟨f.name, .function, pos, none, by decide⟩]
  | _ => []

/-- What a list of statements declares. -/
def listEntries (inLoop : Bool) (body : List Stmt) : List Entry := body.flatMap (lexicals inLoop)

/-- What the body of a function declares. -/
def bodyEntries (inLoop : Bool) (body : List Stmt) : List Entry :=
  (body.flatMap vars).map varEntry ++ listEntries inLoop body

/-- The names that a statement declares outside of itself. -/
def hoisted (s : Stmt) : List String := (vars s).map (·.name) ++ (lexicals false s).map (·.name)

theorem map_name_lexicals (inLoop : Bool) (x : Stmt) :
    (lexicals inLoop x).map (·.name) = (lexicals false x).map (·.name) := by
  cases x with
  | varDecl d =>
    simp only [lexicals]
    split
    · rfl
    · rw [List.map_map, List.map_map]
      rfl
  | _ => rfl

theorem mem_hoisted_of_mem_bodyEntries (hd : d ∈ bodyEntries inLoop body) : ∃ x, x ∈ body ∧ d.name ∈ hoisted x := by
  rcases List.mem_append.mp hd with hd | hd
  · obtain ⟨y, hy, rfl⟩ := List.mem_map.mp hd
    obtain ⟨x, hx, hy⟩ := List.mem_flatMap.mp hy
    exact ⟨x, hx, List.mem_append_left _ (List.mem_map_of_mem hy)⟩
  · obtain ⟨x, hx, hd⟩ := List.mem_flatMap.mp hd
    refine ⟨x, hx, List.mem_append_right _ ?_⟩
    rw [← map_name_lexicals inLoop]
    exact List.mem_map_of_mem hd

/-- The names that a statement declares are those of its declaration, its own as a function, or those that
a statement in it declares for the whole function. -/
theorem mem_hoisted {x : Stmt} (hx : name ∈ hoisted x) :
    (∃ d, x.decl? = some d ∧ name ∈ d.decls.map (·.name)) ∨ (∃ p f, x = .function p f ∧ name = f.name) ∨
      ∃ a, a ∈ x.stmts ∧ name ∈ hoisted a := by
  rcases List.mem_append.mp hx with hx | hx
  · rw [vars_eq, List.map_append, List.mem_append] at hx
    rcases hx with hx | hx
    · obtain ⟨y, hy, rfl⟩ := List.mem_map.mp hx
      obtain ⟨d, hd, hy⟩ := List.mem_flatMap.mp hy
      simp only [hoistedVars] at hy
      split at hy
      · exact .inl ⟨d, Option.mem_toList.mp hd, List.mem_map_of_mem hy⟩
      · cases hy
    · obtain ⟨y, hy, rfl⟩ := List.mem_map.mp hx
      obtain ⟨a, ha, hy⟩ := List.mem_flatMap.mp hy
      exact .inr (.inr ⟨a, ha, List.mem_append_left _ (List.mem_map_of_mem hy)⟩)
  · cases x with
    | varDecl d =>
      simp only [lexicals] at hx
      split at hx
      · cases hx
      · exact .inl ⟨d, rfl, by simpa using hx⟩
    | function p f => exact .inr (.inl ⟨p, f, rfl, List.mem_singleton.mp hx⟩)
    | _ => cases hx

theorem mem_hoisted_varDecl {d : VarDecl} (hx : name ∈ d.decls.map (·.name)) : name ∈ hoisted (.varDecl d) := by
  by_cases hkind : d.kind = .var
  · refine List.mem_append_left _ ?_
    rw [vars_eq]
    simpa [Stmt.decl?, Stmt.stmts, hoistedVars, hkind] using hx
  · exact List.mem_append_right _ (by simpa [lexicals, hkind] using hx)

/-! ## Hoisting -/

/-- Steps for the members of a list, each of which changes the names in one way. -/
theorem forM_ok {g : Names → α → Names} {f : α → Resolve Unit} {xs : List α}
    (hf : ∀ x, x ∈ xs → ∀ {m m' u}, f x m = .ok (u, m') → m' = g m x) (h : xs.forM f n = .ok (u, n')) :
    n' = xs.foldl g n := by
  induction xs generalizing n with
  | nil =>
    cases h
    rfl
  | cons x xs ih =>
    obtain ⟨_, n1, e1, h1⟩ := bind_ok (x := f x) (f := fun _ => xs.forM f) h
    rw [List.foldl_cons, ← hf x List.mem_cons_self e1]
    exact ih (fun y hy => hf y (List.mem_cons_of_mem _ hy)) h1

theorem declareName_ok {kind : BindingKind} {d : Declarator} {b : BindingId}
    (h : declareName s kind d n = .ok (b, n')) :
    n' = (n.declare s d.name kind d.pos).1 ∧ b = (n.declare s d.name kind d.pos).2 := by
  unfold declareName at h
  split at h
  · obtain ⟨_, m1, e1, -⟩ := bind_ok h
    cases e1
  · cases h
    exact ⟨rfl, rfl⟩

theorem hoistVars_ok (h : hoistVars s body n = .ok (u, n')) :
    n' = ((body.flatMap vars).map varEntry).foldl (enter s) n := by
  have hvisit (v : Visit) {m m' : Names} {u : Unit}
      (e : (hoistedVars v.node).forM (fun d => discard (declareName s .var d)) m = .ok (u, m')) :
      m' = (hoistedVars v.node).foldl (fun m d => enter s m (varEntry d)) m := by
    refine forM_ok (fun d _ {m m' u} e => ?_) e
    obtain ⟨b, e1, -⟩ := map_ok (x := declareName s .var d) (f := fun _ => ()) e
    exact (declareName_ok e1).1
  rw [List.foldl_map]
  change _ = (body.flatMap fun x => (Walk.stmt isOpen x).flatMap fun v => hoistedVars v.node).foldl _ n
  rw [← List.flatMap_assoc, List.foldl_flatMap]
  exact forM_ok (fun v _ => hvisit v) h

theorem hoistLexical_ok {x : Stmt} (h : hoistLexical s inLoop x n = .ok (u, n')) :
    n' = (lexicals inLoop x).foldl (enter s) n := by
  cases x with
  | varDecl d =>
    by_cases hkind : d.kind = .var
    · simp only [hoistLexical, hkind, if_true] at h
      cases h
      simp [lexicals, hkind]
    · simp only [hoistLexical, hkind, if_false] at h
      simp only [lexicals, hkind, if_false, List.foldl_map]
      refine forM_ok (fun y _ {m m' u} e => ?_) h
      obtain ⟨b, m1, e1, e2⟩ := bind_ok e
      cases e2
      obtain ⟨rfl, rfl⟩ := declareName_ok e1
      rfl
  | function pos f =>
    obtain ⟨b, e1, -⟩ := map_ok (x := Resolution.declare s f.name .function pos) (f := fun _ => ()) h
    cases e1
    rfl
  | _ =>
    cases h
    rfl

theorem hoistBlock_ok (h : hoistBlock s inLoop body n = .ok (u, n')) :
    n' = (listEntries inLoop body).foldl (enter s) n := by
  rw [listEntries, List.foldl_flatMap]
  exact forM_ok (fun _ _ => hoistLexical_ok) h

theorem hoistFunction_ok (h : hoistFunction s inLoop body n = .ok (u, n')) :
    n' = (bodyEntries inLoop body).foldl (enter s) n := by
  obtain ⟨_, n1, e1, h1⟩ := bind_ok h
  rw [bodyEntries, List.foldl_append, ← hoistVars_ok e1]
  exact hoistBlock_ok h1

end Resolution

end ScriptOptimizer
