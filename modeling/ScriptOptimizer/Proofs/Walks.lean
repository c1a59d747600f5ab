import ScriptOptimizer.Syntax.Walk

/-!
# Walks over whole trees

The walk over a list of nodes is the walk over one after another, whatever their role.
-/

namespace ScriptOptimizer

/-- A result that passes a check is no failure. -/
theorem exists_ok {ε α : Type} {x : Except ε α} {P : α → Bool} (h : x.toOption.any P = true) :
    ∃ y, x = .ok y ∧ P y = true := by
  cases x with
  | error => cases h
  | ok y => exact ⟨y, rfl, h⟩

namespace Walk

variable {enter : Node → Bool}

/-- The walk that enters every node. -/
def everywhere : Node → Bool := fun _ => true

/-- The walk over expressions, one after another. -/
theorem exprs_eq (enter : Node → Bool) (es : List Expr) :
    exprs enter es = es.flatMap (expr enter .plain) := by
  induction es with
  | nil => rfl
  | cons e es ih => rw [exprs, ih, List.flatMap_cons]

/-- The walk over statements, one after another. -/
theorem stmts_eq (enter : Node → Bool) (ss : List Stmt) : stmts enter ss = ss.flatMap (stmt enter) := by
  induction ss with
  | nil => rfl
  | cons s ss ih => rw [stmts, ih, List.flatMap_cons]

/-- Some node of the walk over expressions is on the walk over one of them. -/
theorem mem_exprs {es : List Expr} {v : Visit} : v ∈ exprs enter es ↔ ∃ e, e ∈ es ∧ v ∈ expr enter .plain e := by
  rw [exprs_eq, List.mem_flatMap]

/-- Some node of the walk over statements is on the walk over one of them. -/
theorem mem_stmts {ss : List Stmt} {v : Visit} : v ∈ stmts enter ss ↔ ∃ s, s ∈ ss ∧ v ∈ stmt enter s := by
  rw [stmts_eq, List.mem_flatMap]

/-- The role of an expression does not matter for the nodes below it. -/
theorem expr_role (role : Role) {role' : Role} {e : Expr} {v : Visit} (h : v ∈ expr enter role' e) :
    ∃ w, w ∈ expr enter role e ∧ w.node = v.node := by
  cases e with
  | construct p c as =>
    cases as <;> simp only [expr, visit, List.mem_cons] at h ⊢ <;> rcases h with rfl | h
    · exact ⟨_, .inl rfl, rfl⟩
    · exact ⟨v, .inr h, rfl⟩
    · exact ⟨_, .inl rfl, rfl⟩
    · exact ⟨v, .inr h, rfl⟩
  | hole => simp [expr] at h
  | ident | literal | receiver | raw =>
    simp only [expr, List.mem_singleton] at h ⊢
    subst h
    exact ⟨_, rfl, rfl⟩
  | _ =>
    simp only [expr, visit, List.mem_cons] at h ⊢
    rcases h with rfl | h
    · exact ⟨_, .inl rfl, rfl⟩
    · exact ⟨v, .inr h, rfl⟩

end Walk

end ScriptOptimizer
