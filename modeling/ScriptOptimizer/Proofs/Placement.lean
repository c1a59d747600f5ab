import ScriptOptimizer.Proofs.LoweringCode
import ScriptOptimizer.Proofs.OutputNames

/-!
# Placed code

Resolution gives every part of a script a place: the function that runs it and the scope in which its
names are looked up. The scope of a block or of the head of a loop stands directly inside the scope
around it, the bindings that code writes belong to its function or are captured, and a lexical
declaration stands in the scope that it declares its names in.
-/

namespace ScriptOptimizer

open Lowering

namespace Node

/-- The scope that a node opens. -/
def scope? : Node → Option ScopeId
  | stmt (.block _ s _) | stmt (.forLoop _ s _ _ _ _) | stmt (.forIn _ s _ _ _ _ _) => s
  | _ => none

/-- Whether a node has a scope of its own. -/
def opens : Node → Bool
  | stmt (.block ..) => true
  | stmt (.forLoop _ _ init _ _ _) => init.any Stmt.isLexical
  | _ => false

/-- The names that a node declares in the scope in which it stands. -/
def lexicals : Node → List String
  | stmt (.varDecl d) => if d.kind = .var then [] else d.decls.map (·.name)
  | _ => []

/-- The single statements that are the bodies of a node. -/
def bodies : Node → List Stmt
  | stmt (.ifElse _ _ a b) => a :: b.toList
  | stmt (.whileLoop _ _ a) | stmt (.doWhile _ a _) | stmt (.forLoop _ _ _ _ _ a)
  | stmt (.forIn _ _ _ _ _ _ a) => [a]
  | _ => []

/-- The names that a node gives the keys or values that it goes through. -/
def targets : Node → List String
  | stmt (.forIn _ _ _ decl target _ _) => [eachTarget decl target]
  | _ => []

end Node

namespace Names

variable {n n' : Names} {f : FuncId} {d : ScopeId} {v : Node}

/-- What holds of a node of a function in a scope, apart from its parts. -/
structure Settles (n : Names) (f : FuncId) (d : ScopeId) (v : Node) : Prop where
  lt : d < n.scopes.size
  owner : (n.scope d).owner = f
  held : ∀ {z}, z ∈ v.writes → n.Held f d z
  inside : ∀ {s}, v.scope? = some s → s < n.scopes.size ∧ (n.scope s).outer = n.chain d
  opens : v.opens = true → v.scope?.isSome = true
  declared : ∀ {z}, z ∈ v.lexicals → (n.lookup d z).isSome = true
  bodies : ∀ {x}, x ∈ v.bodies → x.isLexical = false
  targets : ∀ {z}, z ∈ v.targets → z ∈ assignedBy v

/-- A node and all its parts have their places. -/
inductive Placed (n : Names) : FuncId → ScopeId → Node → Prop where
  | expr {f d e} (settles : n.Settles f d (.expr e)) (parts : ∀ a, a ∈ e.parts → Placed n f d (.expr a))
    (function : ∀ p g, e = .function p g → Placed n f d (.func g)) : Placed n f d (.expr e)
  | stmt {f d x} (settles : n.Settles f d (.stmt x))
    (exprs : ∀ e, e ∈ exprsOf d x → Placed n f e.1 (.expr e.2))
    (stmts : ∀ y, y ∈ stmtsOf d x → Placed n f y.1 (.stmt y.2))
    (function : ∀ p g, x = .function p g → Placed n f d (.func g)) : Placed n f d (.stmt x)
  | func {f d g i} (settles : n.Settles f d (.func g)) (id : g.id = some i) (inner : f < i)
    (known : i < n.functions.size)
    (body : ∀ x, x ∈ bodyOf g → Placed n i (n.function i).scope (.stmt x)) : Placed n f d (.func g)

namespace Settles

/-- A node that settles nothing but its place. -/
theorem plain (hlt : d < n.scopes.size) (howner : (n.scope d).owner = f) (hw : v.writes = []) (hs : v.scope? = none)
    (ho : v.opens = false) (hl : v.lexicals = []) (hb : v.bodies = []) (ht : v.targets = []) : n.Settles f d v where
  lt := hlt
  owner := howner
  held := by rw [hw]; nofun
  inside := by rw [hs]; nofun
  opens := by rw [ho]; nofun
  declared := by rw [hl]; nofun
  bodies := by rw [hb]; nofun
  targets := by rw [ht]; nofun

theorem later (h : n.Settles f d v) (hl : n.Later n') (hn : n.Scoped) : n'.Settles f d v where
  lt := Nat.lt_of_lt_of_le h.lt hl.grows.scopes_le
  owner := (hl.grows.owner h.lt).trans h.owner
  held hz := (h.held hz).later hl hn h.lt
  inside hs := hl.inside h.lt (h.inside hs)
  opens := h.opens
  declared hz := hl.grows.isSome_lookup hn hl.last (h.declared hz)
  bodies := h.bodies
  targets := h.targets

end Settles

/-- Code keeps its place behind what is resolved later. -/
theorem Placed.later (h : n.Placed f d v) (hl : n.Later n') (hn : n.Scoped) : n'.Placed f d v := by
  induction h with
  | expr settles _ _ parts function => exact .expr (settles.later hl hn) parts function
  | stmt settles _ _ _ exprs stmts function => exact .stmt (settles.later hl hn) exprs stmts function
  | func settles id inner known _ body =>
    refine .func (settles.later hl hn) id inner (Nat.lt_of_lt_of_le known hl.grows.functions_le) fun x hx => ?_
    rw [hl.grows.function_scope known]
    exact body x hx

theorem Placed.settles (h : n.Placed f d v) : n.Settles f d v := by
  cases h <;> assumption

end Names

namespace Resolution

open Names

variable {n n' : Names} {p : Place} {e : Expr} {x : Stmt} {v : Node}

/-- What resolution gives a node at a place: its parts have theirs, and what is written there is held. -/
def PlacedIn (n : Names) (p : Place) : Node → Prop
  | .expr e => n.Placed p.func p.scope (.expr e) ∧ ∀ z, identName? e = some z → n.Held p.func p.scope z
  | .stmt s => n.Placed p.func p.scope (.stmt s)
  | .param x => ∀ e, x.default = some e → n.Placed p.func p.scope (.expr e)
  | .declarator d => ∀ e, d.init = some e → n.Placed p.func p.scope (.expr e) ∧ n.Held p.func p.scope d.name
  | _ => True

theorem PlacedIn.later (h : PlacedIn n p v) (hl : n.Later n') (hn : n.Scoped) (hp : p.Stands n) : PlacedIn n' p v := by
  cases v with
  | expr e => exact ⟨h.1.later hl hn, fun z hz => (h.2 z hz).later hl hn hp.lt⟩
  | stmt s => exact Placed.later h hl hn
  | param x => exact fun e he => (h e he).later hl hn
  | declarator d => exact fun e he => ⟨(h e he).1.later hl hn, (h e he).2.later hl hn hp.lt⟩
  | _ => trivial

theorem Runs.later {vs vs' : List Node} (h : Runs p vs n vs' n') (hn : n.Scoped) (hp : p.Stands n) : n.Later n' := by
  refine (h.outcome (Q := fun _ => True) hn hp fun v _ => ?_).resolves.later
  cases v with
  | expr | stmt => exact fun _ _ _ _ => trivial
  | param => exact fun _ _ _ _ _ _ => trivial
  | declarator => exact ⟨fun _ _ => trivial, fun _ _ _ _ _ _ => trivial⟩
  | _ => trivial

/-! ## Nodes and their parts -/

theorem placed_expr (hp : p.Stands n) (hwrites : ∀ z, z ∈ (Node.expr e).writes → n.Held p.func p.scope z)
    (hfunction : ∀ q g, e = .function q g → n.Placed p.func p.scope (.func g))
    (hparts : ∀ a, a ∈ e.parts → n.Placed p.func p.scope (.expr a)) : n.Placed p.func p.scope (.expr e) :=
  .expr ⟨hp.lt, hp.owner, fun hz => hwrites _ hz, nofun, nofun, nofun,
    nofun, nofun⟩ hparts hfunction

/-- An expression without parts. -/
theorem placed_leaf (hp : p.Stands n) (hparts : e.parts = []) (hwrites : (Node.expr e).writes = [])
    (hfunction : ∀ q g, e ≠ .function q g) : n.Placed p.func p.scope (.expr e) := by
  refine placed_expr hp (fun z hz => ?_) (fun q g hg => absurd hg (hfunction q g)) fun a ha => ?_
  · rw [hwrites] at hz
    cases hz
  · rw [hparts] at ha
    cases ha

theorem placed_simple (hp : p.Stands n) (hx : x.isSimple = true)
    (hexprs : ∀ e, e ∈ x.exprs → n.Placed p.func p.scope (.expr e))
    (hstmts : ∀ a, a ∈ x.stmts → n.Placed p.func p.scope (.stmt a) ∧ a.isLexical = false) :
    n.Placed p.func p.scope (.stmt x) := by
  have hparts : exprsOf p.scope x = x.exprs.map (p.scope, ·) ∧ stmtsOf p.scope x = x.stmts.map (p.scope, ·) := by
    cases x <;> first | exact ⟨rfl, rfl⟩ | cases hx
  have hself : n.Settles p.func p.scope (.stmt x) := by
    refine ⟨hp.lt, hp.owner, fun h => ?_, fun h => ?_, fun h => ?_, fun h => ?_, fun {a} ha => ?_, fun h => ?_⟩
    case refine_5 =>
      refine (hstmts a ?_).2
      cases x <;> first | exact ha | exact absurd hx Bool.false_ne_true
    all_goals cases x <;> first | exact absurd hx Bool.false_ne_true | cases h
  refine .stmt hself (fun a ha => ?_) (fun a ha => ?_) fun q g hg => (by subst hg; cases hx)
  · rw [hparts.1] at ha
    obtain ⟨e, he, rfl⟩ := List.mem_map.mp ha
    exact hexprs e he
  · rw [hparts.2] at ha
    obtain ⟨y, hy, rfl⟩ := List.mem_map.mp ha
    exact (hstmts y hy).1

/-- The statement that gives a parameter its default value. -/
theorem placed_defaultStmt {y : Param} (hp : p.Stands n) (hheld : n.Held p.func p.scope y.name)
    (he : n.Placed p.func p.scope (.expr e)) : n.Placed p.func p.scope (.stmt (defaultStmt y e)) := by
  have hname : n.Placed p.func p.scope (.expr (.ident y.pos y.name)) :=
    placed_leaf hp rfl rfl nofun
  have hvoid : n.Placed p.func p.scope (.expr (.unary y.pos .void (.literal {} (.number 0)))) :=
    placed_expr hp (List.forall_mem_nil _) nofun
      (List.forall_mem_singleton.mpr (placed_leaf hp rfl rfl nofun))
  have htest : n.Placed p.func p.scope (.expr (.binary y.pos .same (.ident y.pos y.name)
      (.unary y.pos .void (.literal {} (.number 0))))) :=
    placed_expr hp (List.forall_mem_nil _) nofun
      (List.forall_mem_cons.mpr ⟨hname, List.forall_mem_singleton.mpr hvoid⟩)
  have hassign : n.Placed p.func p.scope (.expr (.assign y.pos .set (.ident y.pos y.name) e)) :=
    placed_expr hp (List.forall_mem_singleton.mpr hheld) nofun
      (List.forall_mem_cons.mpr ⟨hname, List.forall_mem_singleton.mpr he⟩)
  refine placed_simple hp rfl (List.forall_mem_singleton.mpr htest) (List.forall_mem_singleton.mpr ⟨?_, rfl⟩)
  exact placed_simple hp rfl (List.forall_mem_singleton.mpr hassign) (List.forall_mem_nil _)

/-- The code of a function is placed in the scope of the function. -/
theorem placed_func {f : Func} {i : FuncId} (hp : p.Stands n) (hid : f.id = some i) (hinner : p.func < i)
    (hknown : i < n.functions.size) (hi : Place.Stands { func := i, scope := (n.function i).scope } n)
    (hparams : ∀ y, y ∈ f.params → n.Held i (n.function i).scope y.name ∧
      ∀ e, y.default = some e → n.Placed i (n.function i).scope (.expr e))
    (hbody : ∀ s, s ∈ f.body → n.Placed i (n.function i).scope (.stmt s)) :
    n.Placed p.func p.scope (.func f) := by
  refine .func (.plain hp.lt hp.owner rfl rfl rfl rfl rfl rfl) hid hinner hknown fun s hs => ?_
  rcases List.mem_append.mp hs with hs | hs
  · obtain ⟨y, hy, hd⟩ := List.mem_filterMap.mp hs
    obtain ⟨e, he, rfl⟩ := Option.map_eq_some_iff.mp hd
    exact placed_defaultStmt hi (hparams y hy).1 ((hparams y hy).2 e he)
  · exact hbody s hs

/-- A declaration in the scope that has its names, if it has a scope at all. -/
theorem placed_varDecl {d : VarDecl} (hn : n.Scoped) (hp : p.Stands n)
    (hdeclared : d.kind ≠ .var → ∀ y, y ∈ d.decls → (n.lookup p.scope y.name).isSome = true)
    (hdecls : ∀ y, y ∈ d.decls → PlacedIn n p (.declarator y)) : n.Placed p.func p.scope (.stmt (.varDecl d)) := by
  refine .stmt ⟨hp.lt, hp.owner, fun hz => ?_, nofun, nofun, fun hz => ?_,
    nofun, nofun⟩ (fun a ha => ?_) (List.forall_mem_nil _) nofun
  · obtain ⟨y, hy, rfl⟩ := List.mem_map.mp hz
    obtain ⟨hy, hwritten⟩ := List.mem_filter.mp hy
    by_cases hkind : d.kind = .var
    · obtain ⟨e, he⟩ : ∃ e, y.init = some e := Option.isSome_iff_exists.mp (by simpa [hkind] using hwritten)
      exact (hdecls y hy e he).2
    · exact hp.owner ▸ Held.of_lookup hn (hdeclared hkind y hy)
  · have hz : _ ∈ (if d.kind = .var then [] else d.decls.map (·.name)) := hz
    split at hz
    · cases hz
    · next hkind =>
      obtain ⟨y, hy, rfl⟩ := List.mem_map.mp hz
      exact hdeclared hkind y hy
  · obtain ⟨e, hmem, rfl⟩ := List.mem_map.mp ha
    obtain ⟨y, hy, hinit⟩ := List.mem_filterMap.mp hmem
    exact (hdecls y hy e hinit).1

/-- A loop over keys or values writes its target. -/
theorem eachTarget_mem {pos : Position} {scope : Option ScopeId} {of : Bool} {decl : Option VarDecl}
    {target : Option Expr} {right : Expr} {b : Stmt}
    (h : (∃ d y, decl = some d ∧ d.decls = [y]) ∨ decl = none ∧ ∃ pos name, target = some (.ident pos name)) :
    eachTarget decl target ∈ assignedBy (.stmt (.forIn pos scope of decl target right b)) := by
  rcases h with ⟨d, y, rfl, hy⟩ | ⟨rfl, q, name, rfl⟩
  · exact List.mem_append_right _ (by simp [eachTarget, hy])
  · exact List.mem_append_left _ List.mem_cons_self

theorem placedIn_within : PlacedIn n (p.within x) v = PlacedIn n p v := by
  unfold Place.within
  cases x.isLoop <;> rfl

/-! ## Runs -/

/-- Resolved nodes have their places, given that the lexical declarations among the nodes stand in the scope
that has their names. -/
theorem Runs.placed {vs vs' : List Node} (h : Runs p vs n vs' n') (hn : n.Scoped) (hp : p.Stands n)
    (hd : ∀ s, .stmt s ∈ vs → Declares n p.scope s) : ∀ v, v ∈ vs' → PlacedIn n' p v := by
  have hlast := h.later hn hp
  have hp' := hp.mono hlast.grows
  induction h with
  | nil => exact List.forall_mem_nil _
  | append first rest ihf ihr =>
    have hl1 := first.later hn hp
    have hp1 := hp.mono hl1.grows
    have hl2 := rest.later hl1.last hp1
    have h1 := ihf hn hp (fun s hs => hd s (List.mem_append_left _ hs)) hl1 hp1
    have h2 := ihr hl1.last hp1 (fun s hs => (hd s (List.mem_append_right _ hs)).mono hl1.grows hn hl1.last) hl2 hp'
    exact List.forall_mem_append.mpr ⟨fun v hv => (h1 v hv).later hl2 hl1.last hp1, h2⟩
  | @name p pos name isWrite n n' refers =>
    obtain ⟨-, -, hheld⟩ := reference_ok (Q := fun _ => True) refers hn hp trivial
    refine List.forall_mem_singleton.mpr ⟨placed_leaf hp' rfl rfl fun _ _ h => (by cases h), fun z hz => ?_⟩
    cases hz
    exact hheld
  | @expr p e e' n n' rebuilt parts ih =>
    have hparts := List.forall_mem_map.mp (ih hn hp (by simp) hlast hp')
    refine List.forall_mem_singleton.mpr ⟨placed_expr hp' (fun z hz => ?_) (fun q g hg => ?_)
      fun a ha => (hparts a ha).1, fun z hz => ?_⟩
    · obtain ⟨pos, hmem⟩ := rebuilt.writes z hz
      exact (hparts _ hmem).2 z rfl
    · subst hg
      cases rebuilt.result
    · cases e' <;> first | exact absurd rebuilt.result Bool.false_ne_true | cases hz
  | @function p pos isExpression f params body n n1 n2 n' enters code pins ih =>
    have hhead := enters.header (Q := fun _ => True) hn hp (.inr trivial) fun _ _ => trivial
    have hlt : n.functions.size < n1.functions.size := hhead.size ▸ Nat.lt_succ_self _
    have hcode := code.later hhead.last hhead.stands
    have hpins := (pinParams_ok (Q := fun _ => True) hcode.last
      (Nat.ne_of_gt (Nat.lt_of_le_of_lt (Nat.zero_le _) hp.lt)) (fun _ _ => trivial) pins).later
    have hall := hcode.later hpins (Nat.le_refl _)
    have hi := hhead.stands.mono hcode.grows
    have hplaced := ih hhead.last hhead.stands (fun s hs => hhead.declares s (by simpa using hs)) hcode hi
    have hscope : (Names.function n' n.functions.size).scope = n.scopes.size :=
      (hall.grows.function_scope hlt).trans hhead.scope
    have hi' := hi.mono hpins.grows
    have hfunc : Names.Placed n' p.func p.scope (.func { f with id := some n.functions.size, params, body }) := by
      refine placed_func hp' rfl (hp.owner ▸ hn.owner_lt hp.lt)
        (Nat.lt_of_lt_of_le hlt hall.grows.functions_le) ?_ ?_ ?_
      · rw [hscope]
        exact hi'
      · intro y hy
        have hmem := List.mem_append_left (body.map Node.stmt) (List.mem_map_of_mem (f := Node.param) hy)
        rw [hscope]
        refine ⟨?_, (hplaced _ hmem).later hpins hcode.last hi⟩
        -- A parameter is declared in the scope of its function, which owns it.
        obtain ⟨x, hx, hname, -⟩ := code.alike_param hmem
        have howner : (Names.scope n' n.scopes.size).owner = n.functions.size := hi'.owner
        rw [hname, ← howner]
        exact Held.of_lookup hall.last
          (hall.grows.isSome_lookup hhead.last hall.last (hhead.params x (by simpa using hx)).2)
      · intro s hs
        rw [hscope]
        exact (hplaced _ (List.mem_append_right _ (List.mem_map_of_mem hs))).later hpins hcode.last hi
    refine List.forall_mem_singleton.mpr ?_
    cases isExpression
    · exact .stmt (.plain hp'.lt hp'.owner rfl rfl rfl rfl rfl rfl) (List.forall_mem_nil _)
        (List.forall_mem_nil _) fun _ _ h => (by cases h; exact hfunc)
    · exact ⟨placed_expr hp' (List.forall_mem_nil _) (fun _ _ h => (by cases h; exact hfunc)) (List.forall_mem_nil _),
        fun _ h => (by cases h)⟩
  | @param p x default n n' value ih =>
    have hvalue := List.forall_mem_map.mp (ih hn hp (by simp) hlast hp')
    exact List.forall_mem_singleton.mpr fun e he => (hvalue e (Option.mem_toList.mpr he)).1
  | unwritten pattern init =>
    refine List.forall_mem_singleton.mpr fun e he => ?_
    rw [init] at he
    cases he
  | @written p d e e' n n1 n' pattern init value refers ih =>
    have hl1 := value.later hn hp
    have hp1 := hp.mono hl1.grows
    obtain ⟨hr, -, hheld⟩ := reference_ok (Q := fun _ => True) refers hl1.last hp1 trivial
    have hvalue : PlacedIn n1 p (.expr e') := ih hn hp (by simp) hl1 hp1 _
      (List.mem_singleton_self _)
    refine List.forall_mem_singleton.mpr fun a ha => ?_
    cases ha
    exact ⟨hvalue.1.later hr.later hl1.last, hheld⟩
  | @varDecl p d decls n n' values ih =>
    have hdecls := ih hn hp (by simp) hlast hp'
    refine List.forall_mem_singleton.mpr (placed_varDecl (d := { d with decls }) hlast.last hp' (fun hkind y hy => ?_)
      fun y hy => hdecls _ (List.mem_map_of_mem hy))
    obtain ⟨v, hv, halike⟩ := values.alike _ (List.mem_map_of_mem hy)
    obtain ⟨x, hx, rfl⟩ := List.mem_map.mp hv
    rw [halike.1]
    exact hlast.grows.isSome_lookup hn hlast.last (hd _ (List.mem_singleton_self _) d rfl hkind x hx)
  | @block p pos scope list list' n n1 n' enters code ih =>
    have ho := openBlock_ok (Q := fun _ => True) hn hp.lt enters
    have hg := Grows.of_steps (ho.steps (fun _ => True) fun _ _ _ _ => trivial)
    have hi : Place.Stands { p with scope := n.scopes.size } n1 := ⟨ho.lt, ho.owner.trans hp.owner⟩
    have hl := code.later ho.last hi
    have hlist := List.forall_mem_map.mp (ih ho.last hi (fun s hs => ho.declares s (by simpa using hs)) hl
      (hi.mono hl.grows))
    refine List.forall_mem_singleton.mpr (.stmt ⟨hp'.lt, hp'.owner, fun h => (by cases h), fun hs => ?_, fun _ => rfl,
      fun h => (by cases h), fun h => (by cases h), fun h => (by cases h)⟩ (List.forall_mem_nil _) (fun y hy => ?_)
      fun _ _ h => (by cases h))
    · cases hs
      exact hl.inside (hp.mono hg).lt ⟨ho.lt, ho.outer⟩
    · obtain ⟨y, hmem, rfl⟩ := List.mem_map.mp hy
      exact hlist y hmem
  | @simple p s s' n n' source result plain bodies steps ih =>
    have hsteps := ih hn hp.within (fun a ha => by
      rcases (Stmt.mem_steps source).mp ha with ⟨_, _, h⟩ | ⟨_, ha, h⟩
      · cases h
      · cases h
        exact .of_isLexical (bodies a ha)) hlast hp'.within
    simp only [placedIn_within] at hsteps
    refine List.forall_mem_singleton.mpr (placed_simple hp' result
      (fun e he => (hsteps _ ((Stmt.mem_steps result).mpr (.inl ⟨e, he, rfl⟩))).1) fun a ha => ?_)
    have hmem := (Stmt.mem_steps result).mpr (.inr ⟨a, ha, rfl⟩)
    refine ⟨hsteps _ hmem, ?_⟩
    obtain ⟨c, hc, -, hlexical⟩ := steps.alike_stmt hmem
    exact hlexical.trans (bodies c (by simpa [Stmt.mem_steps source] using hc))
  | @forLoop p pos scope init init' test test' update update' b b' head n n1 n2 n' enters start body rest ihs ihr =>
    have hhead := headScope_ok (Q := fun _ => True) hn hp enters
    have hg := Grows.of_steps (hhead.steps (fun _ => True) fun _ _ _ _ => trivial)
    have hl1 := start.later hhead.last hhead.stands
    have hp2 := hhead.stands.mono hl1.grows
    have hq : Place.Stands { p with scope := head.getD p.scope, inLoop := true } n2 := ⟨hp2.lt, hp2.owner⟩
    have hl2 := rest.later hl1.last hq
    have hl := hl1.later hl2 (Nat.le_refl _)
    have hq' := hq.mono hl2.grows
    have hstart := List.forall_mem_map.mp (ihs hhead.last hhead.stands (fun s hs => by
      rintro d rfl
      rw [show init = some (.varDecl d) by simpa using hs] at hhead
      exact (hhead.declares d rfl).2 d rfl) hl1 hp2)
    have hrest := ihr hl1.last hq (fun s hs => by
      obtain rfl : s = b := by simpa using hs
      exact .of_isLexical body) hl2 hq'
    simp only [List.forall_mem_append, List.forall_mem_map, List.forall_mem_singleton] at hrest
    obtain ⟨htest, hupdate, hbody⟩ := hrest
    refine List.forall_mem_singleton.mpr (.stmt ⟨hp'.lt, hp'.owner, fun h => (by cases h), fun hs => ?_, fun ho => ?_,
      fun h => (by cases h), fun ha => ?_, fun h => (by cases h)⟩ (fun a ha => ?_) (fun y hy => ?_)
      fun _ _ h => (by cases h))
    · exact hl.inside (hp.mono hg).lt (hhead.inside _ hs)
    · cases init' with
      | none => cases ho
      | some i =>
        obtain ⟨j, hj, -, hlexical⟩ := start.alike_stmt (List.mem_map_of_mem (List.mem_singleton_self i))
        rw [show init = some j by simpa using hj] at hhead
        replace hlexical : j.isLexical = true := hlexical ▸ ho
        cases j with
        | varDecl d => exact (hhead.declares d rfl).1 (by simpa [Stmt.isLexical] using hlexical)
        | _ => cases hlexical
    · rw [List.mem_singleton.mp ha]
      obtain ⟨c, hc, -, hlexical⟩ := rest.alike_stmt (show Node.stmt b' ∈ _ by simp)
      obtain rfl : c = b := by simpa using hc
      exact hlexical.trans body
    · obtain ⟨e, he, rfl⟩ := List.mem_map.mp ha
      rcases List.mem_cons.mp he with rfl | he
      · cases test' with
        | none => exact placed_leaf hq' rfl rfl fun _ _ h => (by cases h)
        | some t => exact (htest t (List.mem_singleton_self t)).1
      · exact (hupdate e he).1
    · obtain ⟨y, hmem, rfl⟩ := List.mem_map.mp hy
      rcases List.mem_cons.mp hmem with rfl | hmem
      · exact hbody
      · exact (hstart y hmem).later hl2 hl1.last hp2
  | @forIn p pos scope of decl target right right' b b' head n n1 n2 n' keys enters body rest ihk ihr =>
    have hl1 := keys.later hn hp
    have hp1 := hp.mono hl1.grows
    have hhead := enters.head (Q := fun _ => True) hl1.last hp1 (fun _ _ _ _ _ _ => trivial) fun _ _ _ => trivial
    have hq : Place.Stands { p with scope := head.getD p.scope, inLoop := true } n2 :=
      ⟨hhead.stands.lt, hhead.stands.owner⟩
    have hl3 := rest.later hhead.resolves.last hq
    have hl := hhead.resolves.later.later hl3 (Nat.le_refl _)
    have hright : PlacedIn n1 p (.expr right') := ihk hn hp (by simp) hl1 hp1 _
      (List.mem_singleton_self _)
    have hbody : PlacedIn n' { p with scope := head.getD p.scope, inLoop := true } (.stmt b') :=
      ihr hhead.resolves.last hq (fun s hs => by
        cases List.mem_singleton.mp hs
        exact .of_isLexical body) hl3 (hq.mono hl3.grows) _ (List.mem_singleton_self _)
    refine List.forall_mem_singleton.mpr (.stmt ⟨hp'.lt, hp'.owner, fun h => (by cases h), fun hs => ?_,
      fun h => (by cases h), fun h => (by cases h), fun ha => ?_, fun hz => ?_⟩ (List.forall_mem_singleton.mpr ?_)
      (List.forall_mem_singleton.mpr hbody) fun _ _ h => (by cases h))
    · exact hl3.inside (hp1.mono hhead.resolves.grows).lt (hhead.inside _ hs)
    · rw [List.mem_singleton.mp ha]
      obtain ⟨c, hc, -, hlexical⟩ := rest.alike_stmt (List.mem_singleton_self _)
      obtain rfl : c = b := by simpa using hc
      exact hlexical.trans body
    · rw [List.mem_singleton.mp hz]
      exact eachTarget_mem hhead.target
    · exact hright.1.later hl hl1.last

end Resolution

theorem Names.Renames.later {n m : Names} (h : n.Renames m) (hn : n.Scoped) : n.Later m := by
  refine .of_remarks hn ?_ h.remarks h.isGlobal (fun b hb => ?_) fun b _ => ?_
  · exact {
      scopes_le := Nat.le_of_eq (by rw [h.scopes])
      bindings_le := Nat.le_of_eq h.bindings_size.symm
      functions_le := Nat.le_of_eq h.functions_size.symm
      owner := fun _ => by rw [h.remarks.scope]
      name := fun _ => h.name _
      scope := fun _ => h.remarks.scope_eq _
      kind := fun _ hk => by rw [h.kind, hk]
      function_name := fun _ => by rw [h.function]
      function_scope := fun _ => h.remarks.function_scope _
      isExpression := fun _ => by rw [h.function]
      reserved := fun hx => h.reserved ▸ hx }
  · rw [h.pinned, hb]
  · rw [h.pinned, h.binding]
    exact ⟨rfl, .inl⟩

end ScriptOptimizer
