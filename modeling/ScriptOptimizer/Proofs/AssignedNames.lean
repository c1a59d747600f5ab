import ScriptOptimizer.Proofs.LoweringCode

/-!
# Names that code assigns

The names that a loop looks for are those that the parts of its code assign, each found where it stands.
-/

namespace ScriptOptimizer.Lowering

variable {e : Expr} {x : Stmt} {d : ScopeId} {z : String}

@[simp] theorem assignedNames_nil : assignedNames [] = [] := rfl

@[simp] theorem assignedNames_cons (v : Visit) (vs : List Visit) :
    assignedNames (v :: vs) = assignedBy v.node ++ assignedNames vs := rfl

@[simp] theorem assignedNames_append (vs ws : List Visit) :
    assignedNames (vs ++ ws) = assignedNames vs ++ assignedNames ws := List.flatMap_append

/-- The role of an expression does not matter for the names that it assigns. -/
@[simp] theorem assignedNames_expr (role : Role) (e : Expr) :
    assignedNames (Walk.expr isLoopCode role e) = exprAssigns e := by
  cases e with
  | construct p c args => cases args <;> simp [exprAssigns, Walk.expr, Walk.visit]
  | _ => simp [exprAssigns, Walk.expr, Walk.visit]

@[simp] theorem assignedNames_optExpr (role : Role) (e : Option Expr) :
    assignedNames (Walk.optExpr isLoopCode role e) = e.toList.flatMap exprAssigns := by
  cases e with
  | none => rfl
  | some e => simp [Walk.optExpr]

@[simp] theorem assignedNames_exprs (es : List Expr) :
    assignedNames (Walk.exprs isLoopCode es) = es.flatMap exprAssigns := by
  induction es with
  | nil => rfl
  | cons e es ih => simp [Walk.exprs, ih]

theorem exprAssigns_hole : exprAssigns .hole = [] := by
  rw [exprAssigns, Walk.expr]
  rfl

@[simp] theorem assignedNames_properties (ps : List Property) :
    assignedNames (Walk.properties isLoopCode ps) = (ps.flatMap memberExprs).flatMap exprAssigns := by
  induction ps with
  | nil => rfl
  | cons p ps ih =>
    cases p with
    | spread => simp [Walk.properties, Walk.visit, ih, memberExprs, assignedBy, isLoopCode]
    | computed p k v | named p k v =>
      cases v <;> simp [Walk.properties, Walk.visit, ih, memberExprs, assignedBy, isLoopCode, exprAssigns_hole]

@[simp] theorem assignedNames_func (f : Func) : assignedNames (Walk.func isLoopCode f) = [] := by
  cases f
  simp [Walk.func, Walk.visit, isLoopCode, assignedBy]

/-- An expression assigns what it assigns itself and what its parts assign. -/
theorem exprAssigns_eq (e : Expr) :
    exprAssigns e = assignedBy (.expr e) ++ e.parts.flatMap exprAssigns := by
  cases e with
  | construct p c args =>
    cases args <;> simp [← assignedNames_expr .plain (.construct ..), Walk.expr, Walk.visit, isLoopCode, assignedBy,
      Expr.parts]
  | _ =>
    rw [← assignedNames_expr .plain]
    simp [Walk.expr, Walk.visit, isLoopCode, assignedBy, Expr.parts]

@[simp] theorem assignedNames_stmt (x : Stmt) : assignedNames (Walk.stmt isLoopCode x) = stmtAssigns x := rfl

@[simp] theorem assignedNames_stmts (list : List Stmt) :
    assignedNames (Walk.stmts isLoopCode list) = list.flatMap stmtAssigns := by
  induction list with
  | nil => rfl
  | cons x list ih => simp [Walk.stmts, ih]

/-- A declaration assigns the names that it gives values, and what these values assign. -/
@[simp] theorem assignedNames_declarators (role : Role) (ds : List Declarator) :
    assignedNames (Walk.declarators isLoopCode role ds) = ds.flatMap fun y =>
      (if y.init.isSome then [y.name] else []) ++ y.pattern.toList.flatMap exprAssigns ++
        y.init.toList.flatMap exprAssigns := by
  induction ds with
  | nil => rfl
  | cons y ds ih => cases y; simp [Walk.declarators, Walk.visit, isLoopCode, assignedBy, ih]

theorem stmtAssigns_varDecl (v : VarDecl) : stmtAssigns (.varDecl v) = v.decls.flatMap fun y =>
    (if y.init.isSome then [y.name] else []) ++ y.pattern.toList.flatMap exprAssigns ++
      y.init.toList.flatMap exprAssigns := by
  cases v
  rw [← assignedNames_stmt]
  simp [Walk.stmt, Walk.varDecl, Walk.visit, isLoopCode, assignedBy]

@[simp] theorem assignedNames_varDecl (role : Role) (v : VarDecl) :
    assignedNames (Walk.varDecl isLoopCode role v) = stmtAssigns (.varDecl v) := by
  rw [stmtAssigns_varDecl]
  cases v
  simp [Walk.varDecl, Walk.visit, isLoopCode, assignedBy]

/-- A statement assigns what it assigns itself and what its parts assign. -/
theorem stmtAssigns_eq (x : Stmt) : stmtAssigns x = (match x with
    | .varDecl v => stmtAssigns (.varDecl v)
    | .block _ _ list => list.flatMap stmtAssigns
    | .ifElse _ t a b => exprAssigns t ++ stmtAssigns a ++ b.toList.flatMap stmtAssigns
    | .forLoop _ _ init t u a =>
      init.toList.flatMap stmtAssigns ++ t.toList.flatMap exprAssigns ++ u.toList.flatMap exprAssigns ++
        stmtAssigns a
    | .forIn _ _ _ decl target right a =>
      assignedBy (.stmt x) ++ (decl.toList.flatMap fun v => stmtAssigns (.varDecl v)) ++
        target.toList.flatMap exprAssigns ++ exprAssigns right ++ stmtAssigns a
    | .whileLoop _ t a => exprAssigns t ++ stmtAssigns a
    | .doWhile _ a t => stmtAssigns a ++ exprAssigns t
    | .returnValue _ e => e.toList.flatMap exprAssigns
    | .throwValue _ e | .expr _ e => exprAssigns e
    | .labeled _ _ a => stmtAssigns a
    | _ => []) := by
  rw [← assignedNames_stmt]
  cases x with
  | varDecl v => rfl
  | ifElse p t a b => cases b <;> simp [Walk.stmt, Walk.visit, isLoopCode, assignedBy]
  | forLoop p scope init t u a => cases init <;> simp [Walk.stmt, Walk.visit, isLoopCode, assignedBy]
  | forIn p scope of decl target right a =>
    cases decl <;> simp [Walk.stmt, Walk.visit, isLoopCode]
  | _ => simp [Walk.stmt, Walk.visit, isLoopCode, assignedBy]

theorem stmtAssigns_expr {a : ScopeId × Expr} (ha : a ∈ exprsOf d x) (hz : z ∈ exprAssigns a.2) :
    z ∈ stmtAssigns x := by
  rw [stmtAssigns_eq]
  cases x with
  | varDecl v =>
    obtain ⟨e, hm, rfl⟩ := List.mem_map.mp ha
    obtain ⟨y, hy, hi⟩ := List.mem_filterMap.mp hm
    change z ∈ stmtAssigns (.varDecl v)
    rw [stmtAssigns_varDecl]
    exact List.mem_flatMap.mpr ⟨y, hy, by simp [hi, hz]⟩
  | forLoop p scope init t u b =>
    obtain ⟨e, hm, rfl⟩ := List.mem_map.mp ha
    rcases List.mem_cons.mp hm with rfl | hu
    · cases t with
      | none =>
        -- The test that stands for a missing one is a literal, which assigns nothing.
        rw [Option.getD_none, exprAssigns_eq] at hz
        cases hz
      | some t =>
        have ht : z ∈ exprAssigns t := hz
        simp [ht]
    · simp only [List.mem_append]
      exact .inl (.inr (List.mem_flatMap.mpr ⟨e, hu, hz⟩))
  | returnValue p arg =>
    obtain ⟨e, hm, rfl⟩ := List.mem_map.mp ha
    exact List.mem_flatMap.mpr ⟨e, hm, hz⟩
  | expr | throwValue | whileLoop | doWhile | ifElse | forIn =>
    rw [List.mem_singleton.mp ha] at hz
    simp [hz]
  | hole | function | block | breakLoop | continueLoop | empty | labeled => cases ha

theorem stmtAssigns_stmt {y : ScopeId × Stmt} (hy : y ∈ stmtsOf d x) (hz : z ∈ stmtAssigns y.2) :
    z ∈ stmtAssigns x := by
  rw [stmtAssigns_eq]
  cases x with
  | block p scope list =>
    obtain ⟨y, hm, rfl⟩ := List.mem_map.mp hy
    exact List.mem_flatMap.mpr ⟨y, hm, hz⟩
  | ifElse p t a b =>
    obtain ⟨y, hm, rfl⟩ := List.mem_map.mp hy
    rcases List.mem_cons.mp hm with rfl | hb
    · simp [hz]
    · exact List.mem_append_right _ (List.mem_flatMap.mpr ⟨y, hb, hz⟩)
  | forLoop p scope init t u b =>
    obtain ⟨y, hm, rfl⟩ := List.mem_map.mp hy
    rcases List.mem_cons.mp hm with rfl | hi
    · exact List.mem_append_right _ hz
    · simp only [List.mem_append]
      exact .inl (.inl (.inl (List.mem_flatMap.mpr ⟨y, hi, hz⟩)))
  | whileLoop | doWhile | forIn =>
    rw [List.mem_singleton.mp hy] at hz
    simp [hz]
  | hole | varDecl | function | expr | throwValue | returnValue | breakLoop | continueLoop | empty
  | labeled => cases hy

/-- A declaration assigns the names that it gives values. -/
theorem stmtAssigns_declarator {v : VarDecl} {y : Declarator} (hy : y ∈ v.decls) (hi : y.init.isSome) :
    y.name ∈ stmtAssigns (.varDecl v) := by
  rw [stmtAssigns_varDecl]
  exact List.mem_flatMap.mpr ⟨y, hy, by simp [hi]⟩

end ScriptOptimizer.Lowering
