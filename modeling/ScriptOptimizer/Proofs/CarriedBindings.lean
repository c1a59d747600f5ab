import Mathlib.Data.List.TakeWhile
import ScriptOptimizer.Proofs.KeptValues
import ScriptOptimizer.Proofs.WatchedLowering

/-!
# Carried bindings

A loop carries the visible bindings that the names mean which its code assigns. All other visible bindings
have, at every point of the loop and behind it, the values that they had in front of it.
-/

namespace ScriptOptimizer

open Lowering

variable {p : Position} {scope : Option Nat} {test : Expr} {update : Option Expr} {of : Bool}

/-! ## Places of parts -/

namespace Names

variable {n : Names} {f : FuncId} {d : ScopeId} {x : Stmt}

/-- The statements in a statement stand in its scope or in the one that it opens; a lexical declaration
stands in one that is opened. -/
theorem Settles.place_stmt (h : n.Settles f d (.stmt x)) {y : ScopeId × Stmt} (hy : y ∈ stmtsOf d x) :
    (y.1 = d ∧ y.2.isLexical = false) ∨ (Node.stmt x).scope? = some y.1 := by
  have hbody : ∀ {a e}, a ∈ (Node.stmt x).bodies → (e = d ∨ (Node.stmt x).scope? = some e) →
      (e = d ∧ a.isLexical = false) ∨ (Node.stmt x).scope? = some e := fun ha he =>
    he.imp (fun he => ⟨he, h.bodies ha⟩) id
  have hscope : ∀ {s : Option ScopeId}, (Node.stmt x).scope? = s →
      s.getD d = d ∨ (Node.stmt x).scope? = some (s.getD d) := by
    rintro (_ | s) hs
    · exact .inl rfl
    · exact .inr hs
  cases x with
  | block p scope list =>
    obtain ⟨y, hm, rfl⟩ := List.mem_map.mp hy
    obtain ⟨s, hs⟩ := Option.isSome_iff_exists.mp (h.opens rfl)
    cases hs
    exact .inr rfl
  | ifElse p t a b =>
    obtain ⟨y, hm, rfl⟩ := List.mem_map.mp hy
    exact .inl ⟨rfl, h.bodies hm⟩
  | whileLoop | doWhile =>
    cases List.mem_singleton.mp hy
    exact .inl ⟨rfl, h.bodies List.mem_cons_self⟩
  | forLoop p scope init t u b =>
    obtain ⟨y, hm, rfl⟩ := List.mem_map.mp hy
    rcases List.mem_cons.mp hm with rfl | hi
    · exact hbody List.mem_cons_self (hscope rfl)
    · cases hl : y.isLexical with
      | false => exact (hscope rfl).imp (fun he => ⟨he, rfl⟩) id
      | true =>
        have hopens : (Node.stmt (.forLoop p scope init t u b)).opens = true := by
          rw [Node.opens, Option.mem_toList.mp hi]
          exact hl
        obtain ⟨s, hs⟩ := Option.isSome_iff_exists.mp (h.opens hopens)
        cases hs
        exact .inr rfl
  | forIn p scope of decl target right a =>
    cases List.mem_singleton.mp hy
    exact hbody List.mem_cons_self (hscope rfl)
  | hole | varDecl | function | expr | throwValue | returnValue | breakLoop | continueLoop | empty
  | labeled => cases hy

/-- So do the expressions in a statement. -/
theorem place_expr {a : ScopeId × Expr} (ha : a ∈ exprsOf d x) :
    a.1 = d ∨ (Node.stmt x).scope? = some a.1 := by
  cases x with
  | varDecl | returnValue =>
    obtain ⟨e, -, rfl⟩ := List.mem_map.mp ha
    exact .inl rfl
  | forLoop p scope init t u b =>
    obtain ⟨e, -, rfl⟩ := List.mem_map.mp ha
    cases scope with
    | none => exact .inl rfl
    | some s => exact .inr rfl
  | expr | throwValue | whileLoop | doWhile | ifElse | forIn =>
    cases List.mem_singleton.mp ha
    exact .inl rfl
  | hole | function | block | breakLoop | continueLoop | empty | labeled => cases ha

/-- The chain of the scope that a node opens. -/
theorem Settles.chain_scope {v : Node} (h : n.Settles f d v) {s : ScopeId} (hs : v.scope? = some s) :
    n.chain s = s :: n.chain d := by
  rw [chain, (h.inside hs).2]

end Names

namespace Lowering

open IR

theorem IsHeld.isTracked {names : Names} {b : BindingId} (h : IsHeld names b) : (names.binding b).isTracked = true := by
  simp [Binding.isTracked, h.1, h.2]

namespace Zone

variable {names : Names} {Z : Zone names} {f : FuncId} {d e : ScopeId} {A A' : List String} {z : String} {b : BindingId}

/-! ## Code in a zone -/

/-- Code of a function in a scope that assigns certain names: its own names are such as the zone allows,
and nested functions stand apart. -/
structure Within (Z : Zone names) (f : FuncId) (d : ScopeId) (A : List String) : Prop where
  func : Z.func ≤ f
  chain : f = Z.func → Z.chain <:+ names.chain d
  assigned : f = Z.func → ∀ z, z ∈ A → Z.Assigned z

theorem Within.mono (h : Z.Within f d A) (hA : ∀ z, z ∈ A' → z ∈ A) : Z.Within f d A' :=
  ⟨h.func, h.chain, fun hf z hz => h.assigned hf z (hA z hz)⟩

theorem Within.inside (h : Z.Within f d A) (he : e = d ∨ names.chain e = e :: names.chain d) : Z.Within f e A := by
  refine ⟨h.func, fun hf => ?_, h.assigned⟩
  rcases he with rfl | he
  · exact h.chain hf
  · rw [he]
    exact (h.chain hf).trans (List.suffix_cons e _)

/-- A scope that stands in the scopes around the code is none of them. -/
theorem Within.not_mem (hn : names.Scoped) (h : Z.Within f d A) (hf : f = Z.func) (he : e < names.scopes.size)
    (hchain : names.chain e = e :: names.chain d) : e ∉ Z.chain := by
  intro hmem
  have hnodup := hn.nodup_chain he
  rw [hchain] at hnodup
  exact (List.nodup_cons.mp hnodup).1 ((h.chain hf).subset hmem)

/-- A name that code assigns means no binding that is kept. -/
theorem Within.not_kept (hn : names.Scoped) (h : Z.Within f d A) (hd : d < names.scopes.size) (hz : z ∈ A)
    (hb : names.resolve d z = some b) (ho : names.owner b = f) : ¬ Z.Kept b := by
  intro hk
  have hf : f = Z.func := ho.symm.trans (Z.owner hk)
  obtain ⟨front, hfront⟩ := h.chain hf
  have hnodup := hn.nodup_chain hd
  unfold Names.resolve at hb
  rw [← hfront] at hb hnodup
  rw [List.findSome?_append] at hb
  cases hfound : front.findSome? fun s => names.lookup s z with
  | none =>
    rw [hfound] at hb
    exact Z.not_assigned hk (h.assigned hf z hz) hb
  | some b' =>
    -- The binding would be one of a scope that the code itself opens.
    rw [hfound] at hb
    cases hb
    obtain ⟨s, hs, hlookup⟩ := List.exists_of_findSome?_eq_some hfound
    have hscope := (hn.lookup_eq_some.mp hlookup).2.1
    have hmem := Z.scope_mem hk
    rw [hscope] at hmem
    exact (List.nodup_append.mp hnodup).2.2 s hs s hmem rfl

/-- The bindings that a scope of another function or a new one declares are not kept. -/
theorem not_kept_of_lookup (hn : names.Scoped) (hb : names.lookup d z = some b)
    (hd : (names.scope d).owner = Z.func → d ∉ Z.chain) : ¬ Z.Kept b := by
  intro hk
  have hscope := (hn.lookup_eq_some.mp hb).2.1
  have howner := Z.owner hk
  have hmem := Z.scope_mem hk
  rw [Names.owner, hscope] at howner
  rw [hscope] at hmem
  exact hd howner hmem

/-- The expressions that stand in a zone. -/
structure Tree (Z : Zone names) (f : FuncId) (d : ScopeId) (a : Expr) : Prop where
  placed : names.Placed f d (.expr a)
  within : Z.Within f d (exprAssigns a)

/-- The statements that stand in a zone. -/
structure Code (Z : Zone names) (f : FuncId) (d : ScopeId) (x : Stmt) : Prop where
  placed : names.Placed f d (.stmt x)
  within : Z.Within f d (stmtAssigns x)
  lexical : x.isLexical = true → f = Z.func → d ∉ Z.chain

/-- The functions that stand in a zone. -/
structure Body (Z : Zone names) (f : FuncId) (d : ScopeId) (g : Func) : Prop where
  placed : names.Placed f d (.func g)
  func : Z.func ≤ f

/-- The names whose bindings are not kept. -/
def Writes (Z : Zone names) (_ : FuncId) (d : ScopeId) (z : String) : Prop :=
  ∀ b, names.resolve d z = some b → IsHeld names b → ¬ Z.Kept b

/-- The functions whose bindings are not kept. -/
def Binds (Z : Zone names) (_ : FuncId) (d : ScopeId) (g : Func) : Prop :=
  ∀ b, names.lookup d g.name = some b → ¬ Z.Kept b

/-! ### Expressions -/

section

variable {a a' : Expr} {x : Stmt} {g : Func} {i : FuncId}

theorem Tree.part (h : Z.Tree f d a) (ha : a' ∈ a.parts) : Z.Tree f d a' := by
  refine ⟨?_, h.within.mono fun z hz => ?_⟩
  · cases h.placed with
    | expr _ parts _ => exact parts a' ha
  · rw [exprAssigns_eq a]
    exact List.mem_append_right _ (List.mem_flatMap.mpr ⟨a', ha, hz⟩)

theorem Tree.function (h : Z.Tree f d (.function p g)) : Z.Body f d g := by
  refine ⟨?_, h.within.func⟩
  cases h.placed with
  | expr _ _ function => exact function p g rfl

/-- A name that an expression itself assigns. -/
theorem Tree.writes (hn : names.Scoped) (h : Z.Tree f d a) (hw : z ∈ (Node.expr a).writes)
    (hz : z ∈ assignedBy (.expr a)) : Z.Writes f d z := by
  intro b hb hheld
  refine h.within.not_kept hn h.placed.settles.lt ?_ hb (h.placed.settles.held hw b hb hheld.isTracked)
  rw [exprAssigns_eq]
  exact List.mem_append_left _ hz

/-- An assignment that may not happen is lowered as a plain assignment in a branch. -/
theorem Tree.logical {o : BinaryOp} {t v : Expr} (h : Z.Tree f d (.assign p (.compound o) t v)) :
    Z.Tree f d (.logical p o t (.assign p .set t v)) := by
  have ht : names.Placed f d (.expr t) := (h.part (by simp [Expr.parts])).placed
  have hv : names.Placed f d (.expr v) := (h.part (by simp [Expr.parts])).placed
  have hs := h.placed.settles
  have hassign : names.Placed f d (.expr (.assign p .set t v)) := by
    refine .expr ⟨hs.lt, hs.owner, hs.held, (by cases ·), (by cases ·), (by cases ·), (by cases ·), (by cases ·)⟩
      (fun a ha => ?_) (by simp)
    rcases List.mem_pair.mp ha with rfl | rfl
    · exact ht
    · exact hv
  refine ⟨.expr (.plain hs.lt hs.owner rfl rfl rfl rfl rfl rfl) (fun a ha => ?_) (by simp),
    h.within.mono fun z hz => ?_⟩
  · rcases List.mem_pair.mp ha with rfl | rfl
    · exact ht
    · exact hassign
  · simp only [exprAssigns_eq (.logical ..), exprAssigns_eq (.assign ..), Expr.parts, assignedBy, List.flatMap_cons,
      List.flatMap_nil, List.mem_append] at hz ⊢
    tauto

/-! ### Statements -/

theorem Code.expr (h : Z.Code f d x) {a : ScopeId × Expr} (ha : a ∈ exprsOf d x) : Z.Tree f a.1 a.2 := by
  have hplaced := h.placed
  refine ⟨?_, (h.within.mono fun z hz => stmtAssigns_expr ha hz).inside ?_⟩
  · cases hplaced with
    | stmt _ exprs _ _ => exact exprs a ha
  · exact (Names.place_expr ha).imp id fun hs => hplaced.settles.chain_scope hs

theorem Code.stmt (hn : names.Scoped) (h : Z.Code f d x) {y : ScopeId × Stmt} (hy : y ∈ stmtsOf d x) :
    Z.Code f y.1 y.2 := by
  have hplaced := h.placed
  have hplace := hplaced.settles.place_stmt hy
  have hchain : y.1 = d ∨ names.chain y.1 = y.1 :: names.chain d :=
    hplace.imp And.left fun hs => hplaced.settles.chain_scope hs
  refine ⟨?_, (h.within.mono fun z hz => stmtAssigns_stmt hy hz).inside hchain, fun hl hf => ?_⟩
  · cases hplaced with
    | stmt _ _ stmts _ => exact stmts y hy
  · rcases hplace with ⟨-, hl'⟩ | hs
    · rw [hl] at hl'
      cases hl'
    · exact h.within.not_mem hn hf (hplaced.settles.inside hs).1 (hplaced.settles.chain_scope hs)

theorem Code.function (h : Z.Code f d (.function p g)) : Z.Body f d g := by
  refine ⟨?_, h.within.func⟩
  cases h.placed with
  | stmt _ _ _ function => exact function p g rfl

theorem Code.declares (hn : names.Scoped) {v : VarDecl} {y : Declarator} (h : Z.Code f d (.varDecl v))
    (hy : y ∈ v.decls) (hw : y.init.isSome = true ∨ v.kind ≠ .var) :
    (∃ p, Z.Tree f d (.ident p y.name)) ∧ Z.Writes f d y.name := by
  have hs := h.placed.settles
  refine ⟨⟨{}, .expr (.plain hs.lt hs.owner rfl rfl rfl rfl rfl rfl) nofun nofun, h.within.mono fun z hz => ?_⟩,
    fun b hb hheld => ?_⟩
  · rw [exprAssigns_eq] at hz
    cases hz
  · have hwrites : y.name ∈ (Node.stmt (.varDecl v)).writes :=
      List.mem_map.mpr ⟨y, List.mem_filter.mpr ⟨hy, by simpa using hw⟩, rfl⟩
    have howner := hs.held hwrites b hb hheld.isTracked
    cases hi : y.init.isSome with
    | true => exact h.within.not_kept hn hs.lt (stmtAssigns_declarator hy hi) hb howner
    | false =>
      -- A lexical variable belongs to the scope of its declaration.
      have hkind : v.kind ≠ .var := hw.resolve_left (by rw [hi]; nofun)
      have hlexical : y.name ∈ (Node.stmt (.varDecl v)).lexicals := by
        rw [Node.lexicals, if_neg hkind]
        exact List.mem_map.mpr ⟨y, hy, rfl⟩
      obtain ⟨b', hb'⟩ := Option.isSome_iff_exists.mp (hs.declared hlexical)
      rw [Names.resolve_of_lookup hb'] at hb
      cases hb
      exact not_kept_of_lookup hn hb' fun hf => h.lexical (by simpa [Stmt.isLexical] using hkind)
        (hs.owner.symm.trans hf)

theorem Code.binds (hn : names.Scoped) {q : Position} {list : List Stmt}
    (h : Z.Code f d (.block p scope list)) (hg : .function q g ∈ list) : Z.Binds f (scope.getD d) g := by
  have hs := h.placed.settles
  obtain ⟨s, hscope⟩ := Option.isSome_iff_exists.mp (hs.opens rfl)
  have hcode : Z.Code f (scope.getD d) (.function q g) :=
    h.stmt hn (y := (scope.getD d, .function q g)) (List.mem_map.mpr ⟨_, hg, rfl⟩)
  cases hscope
  intro b hb
  refine not_kept_of_lookup hn hb fun hf => ?_
  exact h.within.not_mem hn (hcode.placed.settles.owner.symm.trans hf) (hs.inside rfl).1 (hs.chain_scope rfl)

/-! ### Functions -/

theorem Body.stmt (h : Z.Body f d g) (hid : g.id = some i) (hx : x ∈ bodyOf g) :
    Z.Code i (names.function i).scope x := by
  cases h.placed with
  | func _ id inner _ body =>
    rw [hid] at id
    cases id
    have hne : i ≠ Z.func := Nat.ne_of_gt (Nat.lt_of_le_of_lt h.func inner)
    exact ⟨body x hx, ⟨Nat.le_of_lt (Nat.lt_of_le_of_lt h.func inner), fun hi => absurd hi hne,
      fun hi => absurd hi hne⟩, fun _ hi => absurd hi hne⟩

/-- The own bindings of a nested function are not kept. -/
theorem Body.not_kept (hn : names.Scoped) (h : Z.Body f d g) (hid : g.id = some i)
    (hb : b ∈ (names.scope (names.function i).scope).bindings) : ¬ Z.Kept b := by
  cases h.placed with
  | func _ id inner known _ =>
    rw [hid] at id
    cases id
    intro hk
    have howner := Z.owner hk
    rw [Names.owner, (hn.mem_bindings.mp hb).2, hn.owner_scope known] at howner
    exact absurd howner (Nat.ne_of_gt (Nat.lt_of_le_of_lt h.func inner))

theorem Body.binds (hn : names.Scoped) (h : Z.Body f d g) (hid : g.id = some i) (k : Func) :
    Z.Binds i (names.function i).scope k := fun _ hb =>
  h.not_kept hn hid (List.mem_of_find?_eq_some hb)

end

/-! ## The law -/

section

variable {c c' : Site} {s s' t : State} {pos : Position}

/-- What holds where code in a zone is lowered. -/
structure Inv (Z : Zone names) (c : Site) (s : State) : Prop where
  holds : Z.Holds s.values
  free : ∀ f, c.loop = some f → Z.Free f.carried

theorem Holds.temp {v : Value} {x : Operand} (h : Z.Holds s.values)
    (hs : Lowering.temp c v pos names s = .ok (x, s')) : Z.Holds s'.values := by
  rw [temp_apply] at hs
  cases hs
  exact h

theorem Holds.emit {a : Action} {effects : List Effect} {x : StmtId} (h : Z.Holds s.values)
    (hs : Lowering.emit c a pos effects names s = .ok (x, s')) : Z.Holds s'.values := by
  rw [emit_apply] at hs
  cases hs
  exact h

theorem Holds.writeName {v x : Operand} (hw : Z.Writes f d z) (h : Z.Holds s.values)
    (hs : Lowering.writeName c (names.resolve d z) z v pos names s = .ok (x, s')) : Z.Holds s'.values := by
  rcases writeName_ok hs with ⟨-, place, assigned, -, -, hs⟩ | ⟨b, hb, hheld, -, -, t, ht, rfl⟩
  · obtain ⟨_, t1, e1, h1⟩ := bind_ok hs
    cases e1
    obtain ⟨y, e2⟩ := discard_ok h1
    rw [emit_apply] at e2
    cases e2
    exact h
  · rcases ht with ⟨⟨u, rfl⟩, rfl, rfl⟩ | ht
    · exact h.set (.temp (hw b hb hheld) _)
    · have h1 := h.temp ht
      rw [hold, temp_apply] at ht
      cases ht
      exact h1.set (.temp (hw b hb hheld) _)

theorem Holds.bindFunction {i : FuncId} (hb : ¬ Z.Kept b) (h : Z.Holds s.values)
    (hs : BindsFunction names c pos i b s s') : Z.Holds s'.values := by
  rcases hs with ⟨-, place, x, -, hs⟩ | ⟨-, rfl⟩
  · exact h.emit hs
  · exact h.set (.temp hb _)

/-- The visible bindings are those of the function that the scopes around the code declare. -/
theorem mem_visibleBindings (hn : names.Scoped) (hb : b ∈ visibleBindings names c) :
    b < names.bindings.size ∧ names.owner b = c.func ∧ (names.binding b).scope ∈ names.chain c.scope := by
  obtain ⟨hmem, -⟩ := List.mem_filter.mp hb
  obtain ⟨s, hs, hbound⟩ := List.mem_flatMap.mp hmem
  obtain ⟨hlt, hscope⟩ := hn.mem_bindings.mp hbound
  rw [Names.owner, hscope]
  exact ⟨hlt, by simpa using List.mem_takeWhile_imp hs, List.takeWhile_subset _ hs⟩

/-- The bindings that a loop carries are not kept. -/
theorem Within.not_kept_carried (hn : names.Scoped) (hw : Z.Within c.func c.scope A)
    (hd : c.scope < names.scopes.size) (hb : b ∈ carriedBindings names c A) : ¬ Z.Kept b := by
  obtain ⟨hvisible, hcarried⟩ := List.mem_filter.mp hb
  obtain ⟨hassigned, hresolve⟩ := Bool.and_eq_true_iff.mp hcarried
  exact hw.not_kept hn hd (List.contains_iff_mem.mp hassigned) (by simpa using hresolve)
    (mem_visibleBindings hn hvisible).2.1

theorem within_tested {body : Stmt} (htest : Z.Tree f d test)
    (hupdate : ∀ a, update = some a → Z.Tree f d a) (hbody : Z.Code f d body) :
    Z.Within f d (exprAssigns test ++ (update.map exprAssigns).getD [] ++ stmtAssigns body) := by
  refine ⟨htest.within.func, htest.within.chain, fun hf z hz => ?_⟩
  rcases List.mem_append.mp hz with hz | hz
  · rcases List.mem_append.mp hz with hz | hz
    · exact htest.within.assigned hf z hz
    · cases update with
      | none => cases hz
      | some a => exact (hupdate a rfl).within.assigned hf z hz
  · exact hbody.within.assigned hf z hz

theorem Code.within_iterated {decl : Option VarDecl} {target : Option Expr}
    {right : Expr} {body : Stmt} (h : Z.Code f d (.forIn pos scope of decl target right body)) :
    Z.Within f (scope.getD d) (eachTarget decl target :: stmtAssigns body) := by
  have hs := h.placed.settles
  refine (h.within.mono fun z hz => ?_).inside ?_
  · rw [stmtAssigns_eq]
    rcases List.mem_cons.mp hz with rfl | hz
    · have htarget := hs.targets List.mem_cons_self
      simp only [List.mem_append]
      exact .inl (.inl (.inl (.inl htarget)))
    · exact List.mem_append_right _ hz
  · cases scope with
    | none => exact .inl rfl
    | some s => exact .inr (hs.chain_scope rfl)

/-- The bindings that a loop over keys or values carries are not kept. -/
theorem Code.not_kept_iterated (hn : names.Scoped) {decl : Option VarDecl}
    {target : Option Expr} {right : Expr} {body : Stmt}
    (h : Z.Code c.func d (.forIn pos scope of decl target right body))
    (hc : c.scope = scope.getD d) (hb : b ∈ iteratedBindings names c (eachTarget decl target) body) : ¬ Z.Kept b := by
  have hcode := h.stmt hn List.mem_cons_self
  have hwithin := h.within_iterated
  rw [← hc] at hwithin hcode
  rw [iteratedBindings] at hb
  refine Within.not_kept_carried hn (hwithin.mono fun z hz => ?_) hcode.placed.settles.lt hb
  rcases List.mem_append.mp hz with hz | hz
  · split at hz
    · split at hz
      · exact List.mem_singleton.mp hz ▸ List.mem_cons_self
      · cases hz
    · cases hz
  · exact List.mem_cons_of_mem _ hz

theorem Inv.of_free {frame : Frame} (h : Z.Holds s.values) (hf : Z.Free frame.carried) (hl : c.loop = some frame) :
    Z.Inv c s := by
  refine ⟨h, fun g hg => ?_⟩
  rw [hl] at hg
  cases hg
  exact hf

theorem Inv.of_values (h : Z.Inv c s) (hl : c'.loop = c.loop) (hv : t.values = s.values) : Z.Inv c' t :=
  ⟨hv ▸ h.holds, hl ▸ h.free⟩

end

end Zone

/-- The law that code in a zone keeps values. -/
def zoneLaw {names : Names} (hn : names.Scoped) (Z : Zone names) : CodeLaw names where
  Inv := Z.Inv
  Ok _ _ := True
  Step _ _ := True
  Tree := Z.Tree
  Body := Z.Body
  Writes := Z.Writes
  Code := Z.Code
  Binds := Z.Binds
  Behind := Z.Inv
  Pass _ _ _ := True
  step_refl _ := trivial
  step_trans _ _ := trivial
  ok_step _ _ := trivial
  ok_fixed _ := trivial
  tree_part h ha := h.part ha
  tree_function h := h.function
  tree_logical h := h.logical
  writes_assign h hz := h.writes hn (Option.mem_toList.mpr hz) (Option.mem_toList.mpr hz)
  writes_update h hz := h.writes hn (Option.mem_toList.mpr hz) (Option.mem_toList.mpr hz)
  inv_depth d := ⟨fun h => h.of_values rfl rfl, fun h => h.of_values rfl rfl⟩
  inv_values h := h.holds.slots
  inv_tracking _ h := ⟨h.of_values rfl rfl, trivial⟩
  inv_shape _ _ h _ := ⟨h.of_values rfl rfl, trivial⟩
  inv_newResult v h _ := ⟨⟨h.holds.push v, h.free⟩, trivial⟩
  inv_setResult v hr h _ := ⟨⟨h.holds.set (.result hr), h.free⟩, trivial⟩
  temp h _ _ hs := ⟨⟨h.holds.temp hs, h.free⟩, trivial, trivial⟩
  emitMember h _ _ _ hs := ⟨⟨h.holds.emit hs, h.free⟩, trivial⟩
  readName _ _ hs := ⟨(readName_ok hs).1, trivial⟩
  writeName _ hw h _ hs := ⟨⟨h.holds.writeName hw hs, h.free⟩, trivial, trivial⟩
  branch h _ _ _ harms hs := by
    refine ⟨⟨h.holds.branch (fun arm harm t t' hrun ht => ?_) hs, h.free⟩, trivial, fun _ _ => trivial⟩
    exact (harms arm harm _ t t' ⟨ht, h.free⟩ (fun _ _ => trivial) hrun).1.holds
  code_expr h ha := h.expr ha
  code_stmt h hy := h.stmt hn hy
  code_declares h hy hw := h.declares hn hy hw
  code_function h := h.function
  code_binds h hg := h.binds hn hg
  body_stmt h hid hx := h.stmt hid hx
  body_binds h hid _ := h.binds hn hid _
  pass_refl _ _ := trivial
  pass_trans _ _ := trivial
  pass_step _ := trivial
  behind_inv h := h
  inv_behind h _ := h
  inv_first _ h _ := h
  inv_scope _ h := h.of_values rfl rfl
  behind_site _ _ hl _ h := h.of_values hl rfl
  inv_declare r h := by
    refine ⟨h.of_values rfl ?_, trivial⟩
    cases r <;> rfl
  initVar hb hid hmem h hs := by
    have h1 := h.holds.temp hs
    rw [hold, temp_apply] at hs
    cases hs
    exact ⟨⟨h1.set (.temp (hb.not_kept hn hid hmem) _), h.free⟩, trivial⟩
  directive h hs := ⟨⟨h.holds.emit hs, h.free⟩, trivial⟩
  leave action _ h _ hs := by
    obtain ⟨_, s1, e1, h1⟩ := bind_ok hs
    cases e1
    obtain ⟨_, s2, e2, h2⟩ := bind_ok h1
    obtain ⟨x, e3⟩ := discard_ok e2
    rw [emit_apply] at e3
    cases e3
    cases h2
    exact ⟨h.of_values rfl rfl, trivial⟩
  jump hl _ h hs := by
    obtain ⟨_, t2, e2, h2⟩ := bind_ok hs
    have k2 := h.holds.sync (h.free _ hl) e2
    obtain ⟨_, t3, e3, h3⟩ := bind_ok h2
    obtain ⟨x, e4⟩ := discard_ok e3
    have k3 := k2.emit e4
    cases h3
    exact ⟨⟨k3, h.free⟩, trivial⟩
  declare hb hlookup h hs := ⟨⟨h.holds.bindFunction (hb _ hlookup) hs, h.free⟩, trivial⟩
  enter h _ := ⟨h.holds, nofun⟩
  exit h hb _ := ⟨⟨hb.holds, h.free⟩, trivial⟩
  ifElse h _ harms hs := by
    have hi := h.holds.branch (fun arm harm t t' hrun ht => (harms arm harm t t' ⟨ht, h.free⟩ hrun).1.holds) hs
    exact ⟨⟨hi, h.free⟩, trivial, fun _ => ⟨hi, h.free⟩⟩
  testedLoop _ _ _ hv htest hupdate hbody hrun h hs := by
    refine ⟨⟨h.holds.testedLoop (fun b hb => ?_) (fun f _ _ hf t x t' hrun ht => ?_)
      (fun f e _ hh hf he t x t' hrun ht => ?_) (fun f hu hh hf t _ t' hrun' ht => ?_) hs, h.free⟩, trivial⟩
    · exact (Zone.within_tested htest hupdate hbody).not_kept_carried hn htest.placed.settles.lt hb
    · have hk := fun h1 h2 => (hv _ _ t h1 h2).gives hrun
      exact (hk htest (.of_free ht hf rfl)).1.inv.holds
    · have hk := fun h1 h2 => (hv _ _ t h1 h2).gives hrun
      exact (hk (hh ▸ hupdate e he) (.of_free ht hf rfl)).1.inv.holds
    · exact (hrun f hu hh t t' (.of_free ht hf rfl) hrun').1.holds
  iteratedLoop hx hc _ hrun h hs := by
    refine ⟨⟨h.holds.iteratedLoop (fun b hb => hx.not_kept_iterated hn hc hb) (fun f hu hf t _ t' hrun' ht => ?_) hs,
      h.free⟩, trivial⟩
    exact (hrun f hu t t' (.of_free ht hf rfl) hrun').1.holds

namespace Zone

variable {names : Names} {Z : Zone names} {c : Site} {s s1 : State} {pos : Position} {fuel : Nat} {frame : Frame}
  {carried : List (BindingId × TempId)} {body : Stmt}

theorem steady_value (hn : names.Scoped) (hl : c.loop = some frame) (hf : Z.Free frame.carried) {e : Expr}
    (he : Z.Tree c.func c.scope e) : Z.Steady (expr fuel c e) := fun t _ _ h ht =>
  ((((zoneLaw hn Z).obey_parts fuel).value c e t he (.of_free ht hf hl)).gives h).1.inv.holds

theorem steady_stmt (hn : names.Scoped) (hl : c.loop = some frame) (hf : Z.Free frame.carried)
    (hc : (zoneLaw hn Z).Around c) {x : Stmt} (hx : Z.Code c.func c.scope x) : Z.Steady (stmt fuel c x) :=
  fun t _ _ h ht => ((((zoneLaw hn Z).obey_parts fuel).stmt c x t hx hc (.of_free ht hf hl)).gives h).1.behind.holds

/-- The update of a loop stands in the scope of its head. -/
theorem around_inLoop (hn : names.Scoped) (hh : frame.head = c.scope)
    (hupdate : ∀ e, frame.update = some e → Z.Tree c.func c.scope e) : (zoneLaw hn Z).Around (c.inLoop frame) := by
  intro g e hg he
  cases hg
  rw [hh]
  exact hupdate e he

/-- The law holds where the parts of a loop with a condition start. -/
theorem Holds.startsLoop (hn : names.Scoped) {behind : Bool}
    (h : Z.Holds s.values) (htest : Z.Tree c.func c.scope test)
    (hupdate : ∀ e, update = some e → Z.Tree c.func c.scope e) (hbody : Z.Code c.func c.scope body)
    (hs : enterTested names c test update body pos names { s with tracking := {} } = .ok (carried, s1))
    (hframe : frame = { loop := s1.program.stmts.size, carried, update, head := c.scope }) :
    (zoneLaw hn Z).StartsLoop fuel c frame behind test body pos s1.program.blocks.size
      (s1.startTested c behind pos) := by
  obtain ⟨h1, hfree⟩ := Holds.enterLoop (s := { s with tracking := {} }) h
    (fun b hb => (within_tested htest hupdate hbody).not_kept_carried hn htest.placed.settles.lt hb) hs
  have hf : Z.Free frame.carried := by rwa [hframe]
  have hu : ∀ e, frame.update = some e → Z.Tree c.func c.scope e := by rwa [hframe]
  have hh : frame.head = c.scope := by rw [hframe]
  have hteststep : Z.Steady (Lowering.testStep (expr fuel) (c.inLoop frame) frame test pos) :=
    .testStep (steady_value hn rfl hf htest) hf
  have hbodystep : Z.Steady (Lowering.bodyStep (expr fuel) (Lowering.stmt fuel) (c.inLoop frame) frame body pos) :=
    .bodyStep (steady_stmt hn rfl hf (around_inLoop hn hh hu) hbody)
      (fun e he => steady_value hn rfl hf (hh ▸ hu e he)) hf
  have h0 : Z.Holds (s1.startTested c behind pos).values := h1
  constructor
  case first_test => exact .of_free h0 hf rfl
  case first_body => exact .of_free h0 hf rfl
  case second_body =>
    intro t ht
    have h2 := h0.runsTest hteststep ht
    exact .of_free h2 hf rfl
  case second_test =>
    intro t hb
    have h2 := (h0.runsBody hbodystep hb).reloaded hf
    exact .of_free h2 hf rfl

/-- The law holds where the body of a loop over keys or values starts. -/
theorem Holds.startsIterated {declared : Array Bool} {assigned : NameSet} {name : String} {action : Action}
    {effects : List Effect} {e : BlockId} (h : Z.Holds s.values)
    (hcarried : ∀ b, b ∈ iteratedBindings names c name body → ¬ Z.Kept b)
    (hs : (iteratedBindings names c name body).mapM (Lowering.enterBinding c pos) names
      { s with declared, tracking := {} } = .ok (carried, s1))
    (hframe : frame = { loop := s1.program.stmts.size, carried, update := none, head := c.scope }) :
    Z.Inv (c.inLoop frame) { { s1 with program := { s1.program with assigned } }.emitLoop c action effects pos 1 with
      block := e, terminated := false } := by
  obtain ⟨h1, hfree⟩ := Holds.enterLoop (s := { s with declared, tracking := {} }) h hcarried hs
  have hf : Z.Free frame.carried := by rwa [hframe]
  exact .of_free h1 hf rfl

end Zone

/-- The law holds wherever the parts of branches and loops start. -/
theorem starts_zoneLaw {names : Names} (hn : names.Scoped) (Z : Zone names) : (zoneLaw hn Z).StartsParts where
  first h _ := h.of_values rfl rfl
  second tracked h _ hb _ := ⟨hb.holds.restored (h.holds.fits_zip tracked), h.free⟩
  testedLoop _ _ htest hupdate hbody h hs hframe := h.holds.startsLoop hn htest hupdate hbody hs hframe
  iteratedLoop hx hc _ h hs hframe _ _ :=
    h.holds.startsIterated (fun _ hb => hx.not_kept_iterated hn hc hb) hs hframe

/-! ## Loops -/

/-- A loop, once what stands in front of it has been lowered. -/
inductive LoopCode where
  | tested (behind : Bool) (test : Expr) (body : Stmt) (update : Option Expr)
  | iterated (of isDeclared : Bool) (name : String) (object : Operand) (body : Stmt)

namespace LoopCode

/-- Lowers a loop, given how its parts are lowered. -/
def lower (P : Parts) (c : Site) (pos : Position) : LoopCode → Lower Unit
  | tested behind test body update => testedLoop P.value P.stmt c behind test body update pos
  | iterated of isDeclared name object body => iteratedLoop P.stmt c of isDeclared name object body pos

/-- The names that a loop looks for to find the bindings that it carries. -/
def assigned (names : Names) (c : Site) : LoopCode → List String
  | tested _ test body update => exprAssigns test ++ (update.map exprAssigns).getD [] ++ stmtAssigns body
  | iterated _ _ name _ body =>
    (match names.resolve c.scope name with
      | some b => if (names.binding b).isTracked then [name] else []
      | none => []) ++ stmtAssigns body

/-- The bindings that a loop carries. -/
def carried (names : Names) (c : Site) (l : LoopCode) : List BindingId := carriedBindings names c (l.assigned names c)

/-- The expressions of a loop. -/
def exprs : LoopCode → List Expr
  | tested _ test _ update => test :: update.toList
  | iterated .. => []

def body : LoopCode → Stmt
  | tested _ _ body _ | iterated _ _ _ _ body => body

/-- The parts of a loop have their places at a site. -/
structure PlacedAt (names : Names) (c : Site) (l : LoopCode) : Prop where
  exprs : ∀ e, e ∈ l.exprs → names.Placed c.func c.scope (.expr e)
  body : names.Placed c.func c.scope (.stmt l.body)
  lexical : l.body.isLexical = false

end LoopCode

/-- The visible bindings apart from some have the values that they have in another state. -/
def KeepsOthers (names : Names) (c : Site) (bs : List BindingId) (s t : State) : Prop :=
  ∀ b, b ∈ visibleBindings names c → b ∉ bs → t.values.getD b none = s.values.getD b none

/-- One condition on all points. -/
def Watch.always (P : State → Prop) : Watch := ⟨fun _ _ => P, fun _ _ => P⟩

/-- At every point of a loop, and behind it, the visible bindings that it does not carry have the values
that they have in front of it. -/
def LoopCode.Keeps (names : Names) (fuel : Nat) (c : Site) (pos : Position) (l : LoopCode) (s : State) : Prop :=
  (∀ stop, l.lower (watched stop (.always (KeepsOthers names c (l.carried names c) s)) fuel) c pos names s =
    l.lower (parts fuel) c pos names s) ∧
  ∀ t, l.lower (parts fuel) c pos names s = .ok ((), t) → KeepsOthers names c (l.carried names c) s t

def Zone.ofLoop {names : Names} (hn : names.Scoped) (c : Site) (A : List String) (s : State) : Zone names where
  func := c.func
  chain := names.chain c.scope
  Assigned z := z ∈ A
  Kept b := b ∈ visibleBindings names c ∧ b ∉ carriedBindings names c A
  value b := s.values.getD b none
  lt h := (mem_visibleBindings hn h.1).1
  owner h := (mem_visibleBindings hn h.1).2.1
  scope_mem h := (mem_visibleBindings hn h.1).2.2
  not_assigned := by
    rintro b z ⟨hvisible, hcarried⟩ hz hb
    obtain ⟨s, -, hlookup⟩ := List.exists_of_findSome?_eq_some hb
    have hname := (hn.lookup_eq_some.mp hlookup).2.2
    refine hcarried (List.mem_filter.mpr ⟨hvisible, ?_⟩)
    rw [hname, Bool.and_eq_true_iff]
    exact ⟨List.contains_iff_mem.mpr hz, beq_iff_eq.mpr hb⟩

/-- The zone of a whole script, in which nothing is kept. -/
def Zone.all (names : Names) : Zone names where
  func := topFunc
  chain := []
  Assigned _ := True
  Kept _ := False
  value _ := none
  lt := nofun
  owner := nofun
  scope_mem := nofun
  not_assigned := nofun

section

variable {names : Names} {c : Site} {s t : State} {pos : Position} {fuel : Nat} {l : LoopCode}

variable {Z : Zone names}

theorem Zone.Holds.ofLoop (h : Z.Holds s.values) (hn : names.Scoped) (c : Site) (A : List String) :
    (Zone.ofLoop hn c A s).Holds s.values :=
  ⟨h.slots, fun b => ⟨fun _ => rfl, (h.fits b).same⟩⟩

theorem within_ofLoop (hn : names.Scoped) {A A' : List String} (hA : ∀ z, z ∈ A' → z ∈ A) :
    (Zone.ofLoop hn c A s).Within c.func c.scope A' :=
  ⟨Nat.le_refl _, fun _ => List.suffix_refl _, fun _ => hA⟩

theorem provides_ofLoop (hn : names.Scoped) (c : Site) (A : List String) (s : State) :
    (zoneLaw hn (Zone.ofLoop hn c A s)).Provides (.always (KeepsOthers names c (carriedBindings names c A) s)) := by
  have hkeeps : ∀ {d t}, (Zone.ofLoop hn c A s).Inv d t → KeepsOthers names c (carriedBindings names c A) s t :=
    fun h b hb hc => (h.holds.fits b).kept ⟨hb, hc⟩
  exact ⟨fun _ h => hkeeps h, fun _ _ h => hkeeps h, fun _ h => hkeeps h, fun h => hkeeps h, fun h => hkeeps h,
    fun h => hkeeps h⟩

theorem Zone.Holds.keepsOthers {hn : names.Scoped} {A : List String} (h : (Zone.ofLoop hn c A s).Holds t.values) :
    KeepsOthers names c (carriedBindings names c A) s t := fun b hb hc => (h.fits b).kept ⟨hb, hc⟩

/-- A loop with a condition whose parts have their places keeps the bindings that it does not carry. -/
private theorem keeps_tested (hn : names.Scoped) {behind : Bool} {body : Stmt}
    (hl : (LoopCode.tested behind test body update).PlacedAt names c)
    (h : Z.Holds s.values) : (LoopCode.tested behind test body update).Keeps names fuel c pos s := by
  generalize hA : (LoopCode.tested behind test body update).assigned names c = A
  have hs := h.ofLoop hn c A
  have hmem : ∀ z, z ∈ exprAssigns test ∨ z ∈ (update.map exprAssigns).getD [] ∨ z ∈ stmtAssigns body → z ∈ A := by
    intro z hz
    rw [← hA]
    simpa [LoopCode.assigned, or_assoc] using hz
  have htest : (Zone.ofLoop hn c A s).Tree c.func c.scope test :=
    ⟨hl.exprs test List.mem_cons_self, within_ofLoop hn fun z hz => hmem z (.inl hz)⟩
  have hupdate : ∀ e, update = some e → (Zone.ofLoop hn c A s).Tree c.func c.scope e := by
    rintro e rfl
    exact ⟨hl.exprs e (by simp [LoopCode.exprs]), within_ofLoop hn fun z hz => hmem z (.inr (.inl hz))⟩
  have hbody : (Zone.ofLoop hn c A s).Code c.func c.scope body := by
    refine ⟨hl.body, within_ofLoop hn fun z hz => hmem z (.inr (.inr hz)), fun hlexical => ?_⟩
    rw [show body.isLexical = false from hl.lexical] at hlexical
    cases hlexical
  constructor
  · intro stop
    unfold LoopCode.carried
    rw [hA]
    refine (CodeLaw.obey_watched (starts_zoneLaw hn _) (provides_ofLoop hn c A s) fuel).testedLoop_same trivial htest
      hupdate hbody ?_
    exact fun henter hframe => hs.startsLoop hn htest hupdate hbody henter hframe
  · intro t ht
    unfold LoopCode.carried
    rw [hA]
    refine Zone.Holds.keepsOthers (hs.testedLoop (fun b hb hk => hk.2 (hA ▸ hb)) (fun f _ _ hf => ?_)
      (fun f e _ hh hf he => ?_) (fun f hu hh hf => ?_) ht)
    · exact Zone.steady_value hn rfl hf htest
    · exact Zone.steady_value hn rfl hf (hh ▸ hupdate e he)
    · exact Zone.steady_stmt hn rfl hf (Zone.around_inLoop hn hh fun e he => hupdate e (hu ▸ he)) hbody

/-- So does a loop over keys or values. -/
private theorem keeps_iterated (hn : names.Scoped) {isDeclared : Bool} {name : String} {object : Operand}
    {body : Stmt} (hl : (LoopCode.iterated of isDeclared name object body).PlacedAt names c)
    (h : Z.Holds s.values) : (LoopCode.iterated of isDeclared name object body).Keeps names fuel c pos s := by
  generalize hA : (LoopCode.iterated of isDeclared name object body).assigned names c = A
  have hs := h.ofLoop hn c A
  have hbody : (Zone.ofLoop hn c A s).Code c.func c.scope body := by
    refine ⟨hl.body, within_ofLoop hn fun z hz => ?_, fun hlexical => ?_⟩
    · rw [← hA]
      exact List.mem_append_right _ hz
    · rw [show body.isLexical = false from hl.lexical] at hlexical
      cases hlexical
  have hcarried : ∀ b, b ∈ iteratedBindings names c name body → ¬ (Zone.ofLoop hn c A s).Kept b :=
    fun b hb hk => hk.2 (hA ▸ hb)
  constructor
  · intro stop
    unfold LoopCode.carried
    rw [hA]
    refine (CodeLaw.obey_watched (starts_zoneLaw hn _) (provides_ofLoop hn c A s) fuel).iteratedLoop_same trivial
      hbody ?_
    exact fun henter hframe _ _ => hs.startsIterated hcarried henter hframe
  · intro t ht
    unfold LoopCode.carried
    rw [hA]
    refine Zone.Holds.keepsOthers (hs.iteratedLoop hcarried (fun f hu hf => ?_) ht)
    refine Zone.steady_stmt hn rfl hf (fun g e hg he => ?_) hbody
    cases hg
    rw [hu] at he
    cases he

/-- A loop whose parts have their places keeps the bindings that it does not carry. -/
theorem LoopCode.PlacedAt.keeps (hn : names.Scoped) (hl : l.PlacedAt names c) (h : Z.Holds s.values) :
    l.Keeps names fuel c pos s := by
  cases l with
  | tested => exact keeps_tested hn hl h
  | iterated => exact keeps_iterated hn hl h

/-! ## Reaching loops -/

end

end Lowering

end ScriptOptimizer
