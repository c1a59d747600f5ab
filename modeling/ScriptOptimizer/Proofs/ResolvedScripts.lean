import ScriptOptimizer.Proofs.ResolutionRuns

/-!
# Resolved scripts

Resolving a script puts its names in order: every name that it declares is spelled in it, and every
function expression with a name has a binding for it.
-/

namespace ScriptOptimizer

namespace Resolution

open Names

variable {Q R : String → Prop} {n n' : Names} {p : Place} {func : FuncId} {scope : ScopeId} {inLoop : Bool}

/-! ## Starts of functions -/

/-- While the parameters of a function are declared, its scope holds nothing else. -/
structure ParamsOnly (func : FuncId) (scope : ScopeId) (n : Names) : Prop where
  start : n.Scoped
  lt : func < n.functions.size
  scope_eq : (n.function func).scope = scope
  kind : ∀ {b}, b < n.bindings.size → (n.binding b).scope = scope → (n.binding b).kind = .param

theorem ParamsOnly.reserve (h : ParamsOnly func scope n) (name : String) :
    ParamsOnly func scope (n.reserve name) := by
  unfold Names.reserve
  split
  · exact h
  · exact ⟨h.start.of_remarks ⟨rfl, rfl, rfl, fun _ => rfl, fun _ => rfl, fun _ => rfl, fun _ => rfl⟩, h.lt,
      h.scope_eq, h.kind⟩

theorem ParamsOnly.addParam (h : ParamsOnly func scope n) (name : String) (pos : Position) (hQ : Q name)
    (hR : R name) :
    Step Q R scope n (n.addParam scope func name pos) ∧ ParamsOnly func scope (n.addParam scope func name pos) := by
  obtain ⟨hn, hlt, rfl, hkind⟩ := h
  have hstep : Step Q R (n.function func).scope n (n.addParam (n.function func).scope func name pos) := by
    refine .addParam (Nat.le_refl _) hlt hQ (fun b hb => ?_) hR
    obtain ⟨hb, hscope, -⟩ := hn.lookup_eq_some.mp hb
    rw [hkind hb hscope]
    nofun
  have hg := Grows.of_step hstep
  refine ⟨hstep, hn.step hstep, Nat.lt_of_lt_of_le hlt hg.functions_le, hg.function_scope hlt, fun {b} hb => ?_⟩
  cases hnone : n.lookup (n.function func).scope name with
  | some c =>
    rw [addParam_of_some hnone] at hb ⊢
    rw [bindings_size_modifyBinding] at hb
    have hb' : b < n.bindings.size := hb
    rw [binding_modifyBinding]
    split <;> exact hkind hb'
  | none =>
    rw [addParam_of_none hnone] at hb ⊢
    rw [bindings_size_addBinding] at hb
    rw [binding_addBinding]
    split
    · exact fun _ => rfl
    · next hne => exact hkind (Nat.lt_of_le_of_ne (Nat.le_of_lt_succ hb) hne)

theorem declareParam_ok {x : Param} {u : Unit} (hs : declareParam scope func x n = .ok (u, n')) :
    n' = (n.reserve x.name).addParam scope func x.name x.pos := by
  unfold declareParam at hs
  split at hs
  · obtain ⟨_, m1, e1, -⟩ := bind_ok hs
    cases e1
  · split at hs
    · obtain ⟨_, m1, e1, -⟩ := bind_ok hs
      cases e1
    · cases hs
      rfl

/-- Declaring the parameters of a function spells their names and binds them. -/
theorem declareParams_ok {xs : List Param} {u : Unit} (h : ParamsOnly func scope n)
    (hQ : ∀ x, x ∈ xs → Q x.name) (hs : xs.forM (declareParam scope func) n = .ok (u, n')) :
    n'.functions.size = n.functions.size ∧
      (∀ x, x ∈ xs → n'.Spells x.name ∧ (n'.lookup scope x.name).isSome = true) ∧
      ∀ R : String → Prop, (∀ x, x ∈ xs → R x.name) → Steps Q R scope n n' := by
  induction xs generalizing n with
  | nil =>
    cases hs
    exact ⟨rfl, List.forall_mem_nil _, fun _ _ => .refl⟩
  | cons x xs ih =>
    obtain ⟨_, n1, e1, h1⟩ :=
      bind_ok (x := declareParam scope func x) (f := fun _ => xs.forM (declareParam scope func)) hs
    obtain rfl := declareParam_ok e1
    have hreserved := h.reserve x.name
    have hQx := hQ x List.mem_cons_self
    have hparam := hreserved.addParam (R := fun _ => True) x.name x.pos hQx trivial
    obtain ⟨hsize, hrest, hsteps⟩ := ih hparam.2 (fun y hy => hQ y (List.mem_cons_of_mem _ hy)) h1
    have hname : x.name = "" ∨ Q x.name := .inr hQx
    have hall := hsteps (fun _ => True) fun _ _ => trivial
    refine ⟨?_, List.forall_mem_cons.mpr ⟨⟨?_, ?_⟩, hrest⟩, fun R hR => ?_⟩
    · rw [hsize, functions_size_addParam, functions_reserve]
    · exact ((Grows.of_step hparam.1).trans (Grows.of_steps hall)).spells
        (reserve_ok (u := ()) rfl h.start hname).2
    · have hlt := hreserved.scope_eq ▸ hreserved.start.scope_lt hreserved.lt
      refine ((Grows.addParam _ _ _ _ _).trans (Grows.of_steps hall)).isSome_lookup
        (hreserved.start.declare hlt _ _ _) (hparam.2.start.steps hall) ?_
      rw [lookup_declare hreserved.start hlt]
      rfl
    · have hx := (hreserved.addParam x.name x.pos hQx (hR x List.mem_cons_self)).1
      exact .head (.reserve x.name hname) (.head hx (hsteps R fun y hy => hR y (List.mem_cons_of_mem _ hy)))

/-- The own name of a function expression has a binding behind its declaration. -/
theorem declareSelf_ok {f : Func} {isExpression : Bool} {u : Unit} (hn : n.Scoped)
    (hlt : func < n.functions.size) (hscope : (n.function func).scope = scope)
    (hname : (n.function func).name = f.name) (hx : (n.function func).isExpression = isExpression)
    (hs : declareSelf scope f isExpression n = .ok (u, n')) :
    n'.functions = n.functions ∧
      (isExpression = true → f.name ≠ "" → ∃ b, n'.lookup scope f.name = some b) ∧
      ∀ R : String → Prop, R f.name → Steps Q R scope n n' := by
  unfold declareSelf at hs
  obtain ⟨m, n1, e1, h1⟩ := bind_ok hs
  cases e1
  split at h1
  · next hcond =>
    simp only [Bool.and_eq_true, bne_iff_ne, Option.isNone_iff_eq_none] at hcond
    obtain ⟨⟨rfl, hne⟩, hnone⟩ := hcond
    have hn' : n' = n.addSelf scope f.name f.pos := by
      cases h1
      rfl
    have hstep (R : String → Prop) (hR : R f.name) : Step Q R scope n n' := by
      rw [hn', ← hscope, ← hname]
      exact .addSelf (Nat.le_refl _) hlt (by rw [hscope, hname, hnone]) hx (hname ▸ hne) (hname ▸ hR)
    refine ⟨?_, fun _ _ => ?_, fun R hR => .single (hstep R hR)⟩
    · rw [hn', addSelf_of_none hnone]
      rfl
    · have hscopes := hscope ▸ hn.scope_lt hlt
      refine ⟨_, Grows.lookup (n := (n.declare scope f.name .self f.pos).1) ?_ (hn.declare hscopes _ _ _)
        (hn.step (hstep _ trivial : Step Q (fun _ => True) scope n n')) (lookup_declare hn hscopes _ _ _)⟩
      rw [hn']
      exact .modifyBinding _ _ (fun _ => rfl) (fun _ => rfl) fun _ => id
  · next hcond =>
    cases h1
    refine ⟨rfl, fun hx hne => ?_, fun _ _ => .refl⟩
    cases hb : n.lookup scope f.name with
    | some b => exact ⟨b, rfl⟩
    | none => exact absurd (by simp [hx, hne, hb]) hcond

/-- Capturing the parameters of a function. -/
theorem pinParams_ok {xs : List Param} {u : Unit} (hn : n.Scoped) (hscope : scope ≠ 0)
    (hQ : ∀ x, x ∈ xs → Q x.name) (hs : pinParams scope func xs n = .ok (u, n')) : Resolves Q n n' := by
  have hall {f : Param → Resolve Unit} {xs : List Param} {m m' : Names} {u : Unit} (hm : m.Scoped)
      (hf : ∀ x ∈ xs, ∀ {m m' u}, m.Scoped → f x m = .ok (u, m') → Resolves Q m m') (h : xs.forM f m = .ok (u, m')) :
      Resolves Q m m' := by
    induction xs generalizing m with
    | nil =>
      cases h
      exact .refl hm
    | cons x xs ih =>
      obtain ⟨_, m1, e1, h1⟩ := bind_ok (x := f x) (f := fun _ => xs.forM f) h
      have hx := hf x List.mem_cons_self hm e1
      exact hx.trans (ih hx.last (fun y hy => hf y (List.mem_cons_of_mem _ hy)) h1)
  have hmark {m m' : Names} {u : Unit} (hm : m.Scoped)
      (h : (modify fun n : Names => n.modifyFunction func fun f =>
        { f with params := f.params.map fun x =>
            { x with pinned := (n.lookup scope x.name).any fun b => (n.binding b).pinned } } : Resolve Unit) m =
          .ok (u, m')) : Resolves Q m m' := by
    cases h
    exact .of_step hm (.markParams func _ fun _ => rfl) (by simp)
  unfold pinParams at hs
  obtain ⟨m, n1, e1, h1⟩ := bind_ok hs
  cases e1
  dsimp only at h1
  split at h1
  · obtain ⟨_, n2, e2, h2⟩ := bind_ok h1
    have hp := hall hn (fun x hx {m m' u} hm h => by
      obtain ⟨_, _, e1, h1⟩ := bind_ok h
      cases e1
      cases hb : m.lookup scope x.name with
      | none =>
        simp only [hb] at h1
        cases h1
        exact .refl hm
      | some b =>
        simp only [hb] at h1
        obtain ⟨-, hs, hname⟩ := hm.lookup_eq_some.mp hb
        exact (pin_ok h1 hm (hname ▸ hQ x hx) fun _ => hs ▸ hscope).1) e2
    exact hp.trans (hmark hp.last h2)
  · exact hmark hn h1

/-- The names behind the start of a function. -/
theorem paramsOnly_addFunction (hn : n.Scoped) {t : ScopeId} (ht : t < n.scopes.size) (name : String)
    (isExpression : Bool) :
    ParamsOnly n.functions.size n.scopes.size (n.addFunction t name isExpression) := by
  refine ⟨hn.addFunction ht name isExpression, ?_, ?_, fun {b} hb hscope => ?_⟩
  · rw [Names.addFunction, functions_size_addSignature]
    exact Nat.lt_succ_self _
  · rw [function_addFunction, if_pos rfl]
  · exact absurd hscope (Nat.ne_of_lt (hn.binding_scope_lt (b := b) hb))

/-- A scope has the names of a lexical declaration that stands in it. -/
def Declares (n : Names) (scope : ScopeId) (x : Stmt) : Prop :=
  ∀ d, x = .varDecl d → d.kind ≠ .var → ∀ y, y ∈ d.decls → (n.lookup scope y.name).isSome = true

theorem Declares.mono {x : Stmt} (h : Declares n scope x) (hg : n.Grows n') (hn : n.Scoped) (hn' : n'.Scoped) :
    Declares n' scope x := fun d hd hkind y hy => hg.isSome_lookup hn hn' (h d hd hkind y hy)

theorem Declares.of_isLexical {x : Stmt} (h : x.isLexical = false) : Declares n scope x := by
  rintro d rfl hkind
  simp [Stmt.isLexical, hkind] at h

/-- A scope has the names that were entered in it for the statements there. -/
theorem declares_enter {ds : List Entry} {body : List Stmt} (hn : n.Scoped) (hs : scope < n.scopes.size)
    (hds : listEntries inLoop body ⊆ ds) {x : Stmt} (hx : x ∈ body) : Declares (ds.foldl (enter scope) n) scope x := by
  rintro d rfl hkind y hy
  have hlexical : ∃ z, z ∈ lexicals inLoop (.varDecl d) ∧ z.name = y.name := by
    simp only [lexicals, hkind, if_false]
    exact ⟨_, List.mem_map_of_mem hy, rfl⟩
  obtain ⟨z, hz, hname⟩ := hlexical
  rw [← hname]
  exact lookup_enter hn hs (hds (List.mem_flatMap.mpr ⟨_, hx, hz⟩))

/-- The names behind the start of a function: its parameters and what its body declares. -/
structure Header (Q : String → Prop) (f : Func) (isExpression : Bool) (n n' : Names) : Prop where
  last : n'.Scoped
  size : n'.functions.size = n.functions.size + 1
  name : (n'.function n.functions.size).name = f.name
  isExpression_eq : (n'.function n.functions.size).isExpression = isExpression
  scope : (n'.function n.functions.size).scope = n.scopes.size
  spelled : n'.Spells f.name
  params : ∀ x, x ∈ f.params → n'.Spells x.name ∧ (n'.lookup n.scopes.size x.name).isSome = true
  self : isExpression = true → f.name ≠ "" → ∃ b, n'.lookup n.scopes.size f.name = some b
  declares : ∀ x, x ∈ f.body → Declares n' n.scopes.size x
  steps : ∀ R : String → Prop, R f.name → (∀ x, x ∈ f.params → R x.name) →
    (∀ s, s ∈ f.body → ∀ x, x ∈ hoisted s → R x) → Steps Q R n.scopes.size n n'

/-- The place of the code of a function. -/
theorem Header.stands {f : Func} {isExpression : Bool} (h : Header Q f isExpression n n') :
    Place.Stands { func := n.functions.size, scope := n.scopes.size } n' := by
  have hlt : n.functions.size < n'.functions.size := h.size ▸ Nat.lt_succ_self _
  exact ⟨h.scope ▸ h.last.scope_lt hlt, h.scope ▸ h.last.owner_scope hlt⟩

theorem Enters.header {f : Func} {isExpression : Bool} (h : Enters p isExpression f n n') (hn : n.Scoped)
    (hp : p.Stands n) (hQ : f.name = "" ∨ Q f.name) (hQparams : ∀ x, x ∈ f.params → Q x.name) :
    Header Q f isExpression n n' := by
  obtain ⟨n3, n4, _, _, e3, e4, e5⟩ := h
  have hopen : openFunction p f.name isExpression n = n.addFunction p.scope f.name isExpression := by
    rw [Names.addFunction, hp.owner]
    rfl
  rw [hopen] at e3
  have honly := paramsOnly_addFunction hn hp.lt f.name isExpression
  obtain ⟨hreserve, hspelled⟩ := reserve_ok (u := ()) rfl honly.start hQ
  obtain ⟨hsize3, hparams, hsteps3⟩ := declareParams_ok (honly.reserve f.name) hQparams e3
  have hall3 := hsteps3 (fun _ => True) fun _ _ => trivial
  have hg3 := hreserve.grows.trans (Grows.of_steps hall3)
  have hn3 := hreserve.last.steps hall3
  have hscope3 : n.scopes.size < n3.scopes.size :=
    Nat.lt_of_lt_of_le (honly.scope_eq ▸ honly.start.scope_lt honly.lt) hg3.scopes_le
  have hn4 := hoistFunction_ok e4
  have hsteps4 (R : String → Prop) (hR : ∀ s, s ∈ f.body → ∀ x, x ∈ hoisted s → R x) :
      Steps Q R n.scopes.size n3 n4 := by
    rw [hn4]
    refine steps_enter (Nat.le_refl _) hscope3 fun d hd => ?_
    obtain ⟨s, hs, hd⟩ := mem_hoisted_of_mem_bodyEntries hd
    exact hR s hs _ hd
  have hall4 := hsteps4 (fun _ => True) fun _ _ _ _ => trivial
  have hlast4 := hn3.steps hall4
  have hg4 := hg3.trans (Grows.of_steps hall4)
  have hname : ((n.addFunction p.scope f.name isExpression).function n.functions.size).name = f.name := by
    rw [function_addFunction, if_pos rfl]
  have hexpr : ((n.addFunction p.scope f.name isExpression).function n.functions.size).isExpression = isExpression := by
    rw [function_addFunction, if_pos rfl]
  obtain ⟨hfunctions, hself, hsteps5⟩ := declareSelf_ok (Q := Q) hlast4
    (Nat.lt_of_lt_of_le honly.lt hg4.functions_le) ((hg4.function_scope honly.lt).trans honly.scope_eq)
    ((hg4.function_name honly.lt).trans hname) ((hg4.isExpression honly.lt).trans hexpr) e5
  have hall5 := hsteps5 (fun _ => True) trivial
  have hlast := hlast4.steps hall5
  have hg := hg4.trans (Grows.of_steps hall5)
  have hg5 := (Grows.of_steps hall4).trans (Grows.of_steps hall5)
  exact {
    last := hlast
    size := by
      rw [hfunctions, hn4, functions_enter, hsize3, functions_reserve, Names.addFunction, functions_size_addSignature]
      rfl
    name := (hg.function_name honly.lt).trans hname
    isExpression_eq := (hg.isExpression honly.lt).trans hexpr
    scope := (hg.function_scope honly.lt).trans honly.scope_eq
    spelled := ((Grows.of_steps hall3).trans hg5).spells hspelled
    params := fun x hx => ⟨hg5.spells (hparams x hx).1, hg5.isSome_lookup hn3 hlast (hparams x hx).2⟩
    self := hself
    declares := fun x hx => by
      refine Declares.mono ?_ (Grows.of_steps hall5) hlast4 hlast
      rw [hn4]
      exact declares_enter hn3 hscope3 (List.subset_append_right _ _) hx
    steps := fun R hR hRparams hRbody => by
      refine .head (.addFunction f.name isExpression hp.lt) (.head (.reserve f.name hQ) ?_)
      exact ((hsteps3 R hRparams).trans (hsteps4 R hRbody)).trans (hsteps5 R hR) }

/-! ## Starts of blocks and loops -/

/-- The names behind the start of a block in a scope. -/
structure Opened (Q : String → Prop) (t : ScopeId) (list : List Stmt) (n n' : Names) : Prop where
  last : n'.Scoped
  functions : n'.functions = n.functions
  lt : n.scopes.size < n'.scopes.size
  owner : (n'.scope n.scopes.size).owner = (n.scope t).owner
  outer : (n'.scope n.scopes.size).outer = n'.chain t
  declares : ∀ x, x ∈ list → Declares n' n.scopes.size x
  steps : ∀ R : String → Prop, (∀ s, s ∈ list → ∀ x, x ∈ hoisted s → R x) → Steps Q R n.scopes.size n n'

theorem openBlock_ok {t : ScopeId} {list : List Stmt} {u : Unit} (hn : n.Scoped) (ht : t < n.scopes.size)
    (e : hoistBlock n.scopes.size inLoop list (n.openBlock t).1 = .ok (u, n')) : Opened Q t list n n' := by
  obtain rfl := hoistBlock_ok e
  have hn1 := hn.openBlock ht
  have hlt : n.scopes.size < (n.openBlock t).1.scopes.size := by
    rw [Names.openBlock, Array.size_push]
    exact Nat.lt_succ_self _
  have hsteps (R : String → Prop) (hR : ∀ s, s ∈ list → ∀ x, x ∈ hoisted s → R x) :
      Steps Q R n.scopes.size (n.openBlock t).1 ((listEntries inLoop list).foldl (enter n.scopes.size)
        (n.openBlock t).1) := by
    refine steps_enter (Nat.le_refl _) hlt fun d hd => ?_
    obtain ⟨s, hs, hd⟩ := mem_hoisted_of_mem_bodyEntries (List.mem_append_right _ hd)
    exact hR s hs _ hd
  have hkeeps := Keeps.of_steps hn1 (Nat.le_of_lt hlt) (hsteps (fun _ => True) fun _ _ _ _ => trivial)
  refine ⟨hkeeps.last, functions_enter .., Nat.lt_of_lt_of_le hlt hkeeps.grows.scopes_le, ?_, ?_,
    fun x hx => declares_enter hn1 hlt (List.Subset.refl _) hx, fun R hR => .head (.openBlock ht) (hsteps R hR)⟩
  · rw [hkeeps.grows.owner hlt, scope_openBlock, if_pos rfl]
  · rw [hkeeps.outer hlt, hkeeps.chain_eq (Nat.lt_trans ht hlt), scope_openBlock, if_pos rfl, chain, chain,
      scope_openBlock, if_neg (Nat.ne_of_lt ht)]

/-- What the head of a loop declares, and the place of the loop behind it. -/
structure Head (Q : String → Prop) (p : Place) (d : Option VarDecl) (head : Option ScopeId)
    (n n' : Names) : Prop where
  last : n'.Scoped
  functions : n'.functions = n.functions
  stands : Place.Stands { p with scope := head.getD p.scope } n'
  inside : ∀ s, head = some s → s < n'.scopes.size ∧ (n'.scope s).outer = n'.chain p.scope
  declares : ∀ y, d = some y →
    (y.kind ≠ .var → head.isSome = true) ∧ Declares n' (head.getD p.scope) (.varDecl y)
  steps : ∀ R : String → Prop, (∀ y, d = some y → ∀ x, x ∈ y.decls.map (·.name) → R x) →
    Steps Q R n.scopes.size n n'

theorem headScope_ok {d : Option VarDecl} {head : Option ScopeId} (hn : n.Scoped) (hp : p.Stands n)
    (hs : headScope p d n = .ok (head, n')) : Head Q p d head n n' := by
  cases d with
  | none =>
    cases hs
    exact ⟨hn, rfl, hp, nofun, nofun, fun _ _ => .refl⟩
  | some d =>
    unfold headScope at hs
    by_cases hkind : d.kind = .var
    · simp only [hkind, if_true] at hs
      cases hs
      refine ⟨hn, rfl, hp, nofun, fun y hy => ?_, fun _ _ => .refl⟩
      cases hy
      exact ⟨fun hne => absurd hkind hne, .of_isLexical (by simp [Stmt.isLexical, hkind])⟩
    · simp only [hkind, if_false] at hs
      obtain ⟨scope, n1, e1, h1⟩ := bind_ok hs
      cases e1
      obtain ⟨_, n2, e2, h2⟩ := bind_ok h1
      cases h2
      have ho := openBlock_ok (Q := Q) hn hp.lt e2
      refine ⟨ho.last, ho.functions, ⟨ho.lt, ho.owner.trans hp.owner⟩, fun s hs => ?_, fun y hy => ?_,
        fun R hR => ho.steps R fun s hs x hx => ?_⟩
      · cases hs
        exact ⟨ho.lt, ho.outer⟩
      · cases hy
        exact ⟨fun _ => rfl, ho.declares _ List.mem_cons_self⟩
      · rw [List.mem_singleton.mp hs] at hx
        rcases mem_hoisted hx with ⟨_, hd, hx⟩ | ⟨_, _, hf, _⟩ | ⟨_, ha, _⟩
        · cases hd
          exact hR d rfl x hx
        · cases hf
        · cases ha

/-- The head of a loop over keys or values spells the name that the loop writes. -/
structure EachHead (Q : String → Prop) (p : Place) (decl : Option VarDecl) (target : Option Expr)
    (head : Option ScopeId) (n n' : Names) : Prop where
  resolves : Resolves Q n n'
  stands : Place.Stands { p with scope := head.getD p.scope } n'
  inside : ∀ s, head = some s → s < n'.scopes.size ∧ (n'.scope s).outer = n'.chain p.scope
  spelled : ∀ d, decl = some d → ∀ x, x ∈ d.decls.map (·.name) → n'.Spells x
  target : (∃ d y, decl = some d ∧ d.decls = [y]) ∨ decl = none ∧ ∃ pos name, target = some (.ident pos name)

theorem EntersEach.head {decl : Option VarDecl} {target : Option Expr} {head : Option ScopeId}
    (h : EntersEach p decl target head n n') (hn : n.Scoped) (hp : p.Stands n)
    (hdecl : ∀ d, decl = some d → d.All (Node.Refers Q))
    (htarget : ∀ pos name, target = some (.ident pos name) → Q name) : EachHead Q p decl target head n n' := by
  rcases h with ⟨d, rfl, hs⟩ | ⟨rfl, rfl, hs⟩
  · obtain ⟨declPos, kind, decls⟩ := d
    rcases decls with _ | ⟨⟨pos, name, pattern, _ | init⟩, _ | ⟨_, _⟩⟩
    case cons.none.nil =>
      unfold loopDecl at hs
      dsimp only at hs
      split at hs
      · obtain ⟨_, m1, e1, -⟩ := bind_ok hs
        cases e1
      obtain ⟨head', n1, e1, h1⟩ := bind_ok hs
      obtain ⟨_, n2, e2, h2⟩ := bind_ok h1
      cases h2
      have hhead := headScope_ok (Q := Q) hn hp e1
      have hQ := ((VarDecl.all_iff.mp (hdecl _ rfl)).2 _ (List.mem_singleton_self _)).1
      obtain ⟨hr, hspelled, -⟩ := reference_ok e2 hhead.last hhead.stands (hQ name (List.mem_singleton_self _))
      have hnames : ∀ y, some (VarDecl.mk declPos kind [⟨pos, name, pattern, none⟩]) = some y →
          ∀ x, x ∈ y.decls.map (·.name) → n'.Spells x := by
        intro y hy x hx
        cases hy
        rw [List.mem_singleton.mp hx]
        exact hspelled
      refine ⟨.behind hn (hhead.steps _ hnames) (by rw [hhead.functions]) hr, hhead.stands.mono hr.grows,
        fun s hs => hr.later.inside ?_ (hhead.inside s hs), hnames, .inl ⟨_, _, rfl, rfl⟩⟩
      exact Nat.lt_of_lt_of_le hp.lt (Grows.of_steps (hhead.steps (fun _ => True) fun _ _ _ _ => trivial)).scopes_le
    all_goals cases hs
  · cases target with
    | none => cases hs
    | some t =>
      cases t with
      | ident pos name =>
        obtain ⟨hr, -⟩ := reference_ok hs hn hp (htarget pos name rfl)
        exact ⟨hr, hp.mono hr.grows, nofun, nofun, .inr ⟨rfl, pos, name, rfl⟩⟩
      | _ => cases hs

/-! ## Runs -/

/-- The names that a node declares outside of itself. -/
def hoistedBy : Node → List String
  | .stmt s => hoisted s
  | .declarator d => [d.name]
  | _ => []

/-- What a run gives: names that have grown in steps, among them those that its nodes declare. -/
structure Outcome (Q : String → Prop) (vs : List Node) (n n' : Names) : Prop where
  resolves : Resolves Q n n'
  spelled : ∀ v, v ∈ vs → ∀ x, x ∈ hoistedBy v → n'.Spells x

theorem Outcome.single {v : Node} (h : Resolves Q n n') (hv : ∀ x, x ∈ hoistedBy v → n'.Spells x) :
    Outcome Q [v] n n' := ⟨h, List.forall_mem_singleton.mpr hv⟩

theorem Place.Stands.within {s : Stmt} (h : p.Stands n) : (p.within s).Stands n := by
  unfold Place.within
  cases s.isLoop <;> exact ⟨h.lt, h.owner⟩

/-- Names that are spelled behind the parts of a statement that declares nothing itself. -/
theorem spells_of_stmts {s : Stmt} (hdecl : s.decl? = none) (hfunc : ∀ pos f, s ≠ .function pos f)
    (h : ∀ a, a ∈ s.stmts → ∀ x, x ∈ hoisted a → n.Spells x) {x : String} (hx : x ∈ hoisted s) : n.Spells x := by
  rcases mem_hoisted hx with ⟨d, hd, -⟩ | ⟨pos, f, hf, -⟩ | ⟨a, ha, hx⟩
  · rw [hdecl] at hd
    cases hd
  · exact absurd hf (hfunc pos f)
  · exact h a ha x hx

/-- The parts of a loop that are resolved behind its start. -/
theorem all_forLoop {P : Node → Prop} {pos : Position} {scope : Option ScopeId} {init : Option Stmt}
    {test update : Option Expr} {b : Stmt} (h : (Stmt.forLoop pos scope init test update b).All P) :
    ∀ v, v ∈ test.toList.map Node.expr ++ (update.toList.map Node.expr ++ [Node.stmt b]) → v.Within P := by
  simp only [List.forall_mem_append, List.forall_mem_map, List.forall_mem_singleton]
  exact ⟨fun e he => h.exprs (List.mem_append_left _ he), fun e he => h.exprs (List.mem_append_right _ he),
    h.stmts (List.mem_append_right _ (List.mem_singleton_self b))⟩

theorem all_ofFunc {P : Node → Prop} {pos : Position} {f : Func} :
    ∀ {isExpression : Bool}, (∀ v, v ∈ [Node.ofFunc pos f isExpression] → v.Within P) → f.All P
  | false, h => Stmt.All.function (h _ (List.mem_singleton_self _))
  | true, h => Expr.All.function (h _ (List.mem_singleton_self _))

theorem Runs.outcome {vs vs' : List Node} (h : Runs p vs n vs' n') (hn : n.Scoped) (hp : p.Stands n)
    (hQ : ∀ v, v ∈ vs → v.Within (Node.Refers Q)) : Outcome Q vs n n' := by
  induction h with
  | nil => exact ⟨.refl hn, List.forall_mem_nil _⟩
  | append _ _ first rest =>
    obtain ⟨hfirst, hrest⟩ := List.forall_mem_append.mp hQ
    have h1 := first hn hp hfirst
    have h2 := rest h1.resolves.last (hp.mono h1.resolves.grows) hrest
    exact ⟨h1.resolves.trans h2.resolves, List.forall_mem_append.mpr
      ⟨fun v hv x hx => h2.resolves.grows.spells (h1.spelled v hv x hx), h2.spelled⟩⟩
  | @name p pos name isWrite n n' refers =>
    have hname : Q name := (List.forall_mem_singleton.mp hQ).self Expr.noConfusion name (List.mem_singleton_self name)
    exact .single (reference_ok refers hn hp hname).1 (List.forall_mem_nil _)
  | expr rebuilt parts ih =>
    refine .single (ih hn hp (List.forall_mem_map.mpr fun a ha => ?_)).resolves (List.forall_mem_nil _)
    exact (List.forall_mem_singleton.mp hQ).part ha
  | @function p pos isExpression f params body n n1 n2 n' enters code pins ih =>
    obtain ⟨hself, hparams, hbody⟩ := Func.all_iff.mp (all_ofFunc hQ)
    have hname : ∀ x, x ∈ f.params → Q x.name := fun x hx => (hparams x hx).1 _ (List.mem_singleton_self _)
    have hhead := enters.header hn hp hself.func hname
    have hlt : n.functions.size < n1.functions.size := hhead.size ▸ Nat.lt_succ_self _
    obtain ⟨hcode, hspelled⟩ := ih hhead.last hhead.stands (List.forall_mem_append.mpr
      ⟨List.forall_mem_map.mpr fun x hx => (hparams x hx).2.2, List.forall_mem_map.mpr hbody⟩)
    have hpins := pinParams_ok hcode.last (Nat.ne_of_gt (Nat.lt_of_le_of_lt (Nat.zero_le _) hp.lt)) hname pins
    have hr := hcode.trans hpins
    have hfunc := hr.grows.spells hhead.spelled
    refine .single ⟨hn, ?_, fun {g} hle hg => ?_⟩ fun x hx => ?_
    · have hsteps := hhead.steps _ hfunc (fun x hx => hr.grows.spells (hhead.params x hx).1) fun s hs x hx =>
        hpins.grows.spells (hspelled _ (List.mem_append_right _ (List.mem_map_of_mem hs)) x hx)
      exact hsteps.trans (hr.steps.mono (fun _ => id) (Grows.of_steps hsteps).scopes_le)
    · rcases Nat.eq_or_lt_of_le hle with rfl | hlt'
      · unfold NamesItself
        rw [hr.grows.function_name hlt, hr.grows.function_scope hlt, hr.grows.isExpression hlt, hhead.name,
          hhead.scope, hhead.isExpression_eq]
        refine ⟨hfunc, fun hx hne => ?_⟩
        obtain ⟨b, hb⟩ := hhead.self hx hne
        exact ⟨b, hr.grows.lookup hhead.last hr.last hb⟩
      · exact hr.selves (hhead.size ▸ hlt') hg
    · cases isExpression
      · rcases mem_hoisted hx with ⟨_, hd, -⟩ | ⟨_, _, hf, rfl⟩ | ⟨_, ha, -⟩
        · cases hd
        · cases hf
          exact hfunc
        · cases ha
      · cases hx
  | @param p x default n n' value ih =>
    refine .single (ih hn hp (List.forall_mem_map.mpr fun a ha => ?_)).resolves (List.forall_mem_nil _)
    exact List.forall_mem_singleton.mp hQ a (Option.mem_toList.mp ha)
  | @unwritten p d n pattern init =>
    have hname := (List.forall_mem_singleton.mp hQ).1 d.name (List.mem_singleton_self _)
    obtain ⟨hr, hspelled⟩ := reserve_ok (u := ()) rfl hn (.inr hname)
    exact .single hr (List.forall_mem_singleton.mpr hspelled)
  | @written p d e e' n n1 n' pattern init value refers ih =>
    obtain ⟨hname, hinit⟩ := List.forall_mem_singleton.mp hQ
    have h1 := ih hn hp (List.forall_mem_singleton.mpr (hinit e init))
    obtain ⟨hr, hspelled, -⟩ := reference_ok refers h1.resolves.last (hp.mono h1.resolves.grows)
      (hname d.name (List.mem_singleton_self _))
    exact .single (h1.resolves.trans hr) (List.forall_mem_singleton.mpr hspelled)
  | @varDecl p d decls n n' values ih =>
    have hall := VarDecl.all_iff.mp (hQ _ (List.mem_singleton_self _))
    obtain ⟨hr, hspelled⟩ := ih hn hp (List.forall_mem_map.mpr fun x hx => ⟨(hall.2 x hx).1, (hall.2 x hx).2.2⟩)
    refine .single hr fun x hx => ?_
    rcases mem_hoisted hx with ⟨_, hd, hx⟩ | ⟨_, _, hf, _⟩ | ⟨_, ha, _⟩
    · cases hd
      obtain ⟨y, hy, rfl⟩ := List.mem_map.mp hx
      exact hspelled _ (List.mem_map_of_mem hy) _ (List.mem_singleton_self _)
    · cases hf
    · cases ha
  | @block p pos scope list list' n n1 n' enters code ih =>
    have ho := openBlock_ok (Q := Q) hn hp.lt enters
    obtain ⟨hr, hspelled⟩ := ih ho.last ⟨ho.lt, ho.owner.trans hp.owner⟩
      (List.forall_mem_map.mpr fun s hs => (List.forall_mem_singleton.mp hQ).stmts hs)
    have hnames : ∀ s, s ∈ list → ∀ x, x ∈ hoisted s → Names.Spells n' x :=
      fun s hs => hspelled _ (List.mem_map_of_mem hs)
    exact .single (.behind hn (ho.steps _ hnames) (by rw [ho.functions]) hr)
      fun x => spells_of_stmts (s := .block pos scope list) rfl nofun hnames
  | @simple p s s' n n' source result plain bodies steps ih =>
    have hall : s.All (Node.Refers Q) := hQ _ (List.mem_singleton_self _)
    obtain ⟨hr, hspelled⟩ := ih hn hp.within fun v hv => by
      rcases (Stmt.mem_steps source).mp hv with ⟨e, he, rfl⟩ | ⟨a, ha, rfl⟩
      · exact hall.exprs he
      · exact hall.stmts ha
    refine .single hr fun x => spells_of_stmts (Stmt.decl?_of_isSimple source)
      (fun _ _ h => by subst h; cases source) fun a ha => ?_
    exact hspelled _ ((Stmt.mem_steps source).mpr (.inr ⟨a, ha, rfl⟩))
  | @forLoop p pos scope init init' test test' update update' b b' head n n1 n2 n' enters start body rest ihs ihr =>
    have hall : (Stmt.forLoop pos scope init test update b).All (Node.Refers Q) := hQ _ (List.mem_singleton_self _)
    have hhead := headScope_ok (Q := Q) hn hp enters
    obtain ⟨hr1, hspelled1⟩ := ihs hhead.last hhead.stands
      (List.forall_mem_map.mpr fun a ha => hall.stmts (List.mem_append_left _ ha))
    have hp2 := hhead.stands.mono hr1.grows
    obtain ⟨hr2, hspelled2⟩ := ihr hr1.last ⟨hp2.lt, hp2.owner⟩ (all_forLoop hall)
    have hstart : ∀ a, a ∈ init.toList → ∀ x, x ∈ hoisted a → Names.Spells n' x := fun a ha x hx =>
      hr2.grows.spells (hspelled1 _ (List.mem_map_of_mem ha) x hx)
    -- What the head declares is spelled by the declaration that it is.
    have hdecl : ∀ y, init.bind varDecl? = some y → ∀ x, x ∈ y.decls.map (·.name) → Names.Spells n' x := by
      intro y hy x hx
      cases init with
      | none => cases hy
      | some i =>
        cases i <;> cases hy
        exact hstart _ List.mem_cons_self x (mem_hoisted_varDecl hx)
    refine .single (.behind hn (hhead.steps _ hdecl) (by rw [hhead.functions]) (hr1.trans hr2))
      fun x => spells_of_stmts (s := .forLoop pos scope init test update b) rfl nofun
        (List.forall_mem_append.mpr ⟨hstart, List.forall_mem_singleton.mpr ?_⟩)
    exact hspelled2 (.stmt b) (by simp)
  | @forIn p pos scope of decl target right right' b b' head n n1 n2 n' keys enters body rest ihk ihr =>
    have hall : (Stmt.forIn pos scope of decl target right b).All (Node.Refers Q) := hQ _ (List.mem_singleton_self _)
    obtain ⟨hr1, -⟩ := ihk hn hp (List.forall_mem_singleton.mpr hall.forIn.1)
    have hhead : EachHead Q p decl target head n1 n2 := by
      refine enters.head hr1.last (hp.mono hr1.grows) (fun d hd => hall.decl hd) fun pos name ht => ?_
      have ht : Expr.All (Node.Refers Q) (.ident pos name) := hall.exprs (List.mem_append_left _ (by simp [ht]))
      exact ht.self Expr.noConfusion name (List.mem_singleton_self name)
    obtain ⟨hr2, hspelled⟩ := ihr hhead.resolves.last ⟨hhead.stands.lt, hhead.stands.owner⟩
      (List.forall_mem_singleton.mpr hall.forIn.2)
    refine .single (hr1.trans (hhead.resolves.trans hr2)) fun x hx => ?_
    rcases mem_hoisted hx with ⟨d, hd, hx⟩ | ⟨_, _, hf, -⟩ | ⟨a, ha, hx⟩
    · exact hr2.grows.spells (hhead.spelled d hd x hx)
    · cases hf
    · rw [List.mem_singleton.mp ha] at hx
      exact hspelled _ (List.mem_singleton_self _) x hx

/-- A statement starts plainly if it does so itself and its parts do. -/
theorem starts_stmt {s : Stmt} (hself : startsPlain (.stmt s) = true)
    (hdecl : ∀ d, s.decl? = some d → d.All (startsPlain · = true))
    (hfunc : ∀ pos f, s = .function pos f → f.All (startsPlain · = true))
    (hexprs : ∀ e, e ∈ s.exprs → e.All (startsPlain · = true))
    (hstmts : ∀ a, a ∈ s.stmts → a.All (startsPlain · = true)) :
    ∀ v, v ∈ [Node.stmt s] → v.Within (startsPlain · = true) :=
  List.forall_mem_singleton.mpr (Stmt.all_iff.mpr ⟨fun _ => hself, hdecl, hfunc, hexprs, hstmts⟩)

/-- The loops of a resolved tree start with declarations or expressions if those of the tree do. -/
theorem Runs.starts {vs vs' : List Node} (h : Runs p vs n vs' n')
    (hvs : ∀ v, v ∈ vs → v.Within (startsPlain · = true)) : ∀ v, v ∈ vs' → v.Within (startsPlain · = true) := by
  induction h with
  | nil | name | unwritten => exact hvs
  | append _ _ first rest =>
    obtain ⟨hfirst, hrest⟩ := List.forall_mem_append.mp hvs
    exact List.forall_mem_append.mpr ⟨first hfirst, rest hrest⟩
  | @expr p e e' n n' rebuilt parts ih =>
    have hall : e.All (startsPlain · = true) := hvs _ (List.mem_singleton_self _)
    have hparts := List.forall_mem_map.mp (ih (List.forall_mem_map.mpr fun a ha => hall.part ha))
    refine List.forall_mem_singleton.mpr (Expr.All.intro (P := (startsPlain · = true)) rfl (fun _ => rfl)
      (fun q f hf => ?_) hparts)
    subst hf
    cases rebuilt.result
  | @function p pos isExpression f params body n n1 n2 n' enters code pins ih =>
    obtain ⟨-, hparams, hbody⟩ := Func.all_iff.mp (all_ofFunc hvs)
    obtain ⟨hdefaults, hcode⟩ := List.forall_mem_append.mp (ih (List.forall_mem_append.mpr
      ⟨List.forall_mem_map.mpr fun x hx => (hparams x hx).2.2, List.forall_mem_map.mpr hbody⟩))
    have hall' : Func.All (startsPlain · = true) { f with id := some n.functions.size, params, body } := by
      refine Func.all_iff.mpr ⟨rfl, fun y hy => ⟨rfl, ?_, hdefaults _ (List.mem_map_of_mem hy)⟩,
        fun s hs => hcode _ (List.mem_map_of_mem hs)⟩
      obtain ⟨x, hx, -, hpattern⟩ := code.alike_param (List.mem_append_left _ (List.mem_map_of_mem hy))
      exact hpattern ▸ (hparams x (by simpa using hx)).2.1
    cases isExpression
    · exact starts_stmt rfl nofun (fun _ _ h => (by cases h; exact hall'))
        (List.forall_mem_nil _) (List.forall_mem_nil _)
    · exact List.forall_mem_singleton.mpr (Expr.All.intro (P := (startsPlain · = true)) (e := .function pos _) rfl
        (fun _ => rfl) (fun _ _ h => (by cases h; exact hall')) (List.forall_mem_nil _))
  | @param p x default n n' value ih =>
    have hdefault := List.forall_mem_singleton.mp hvs
    have hvalue := List.forall_mem_map.mp (ih (List.forall_mem_map.mpr fun a ha =>
      hdefault a (Option.mem_toList.mp ha)))
    exact List.forall_mem_singleton.mpr fun e he => hvalue e (Option.mem_toList.mpr he)
  | @written p d e e' n n1 n' pattern init value refers ih =>
    have hvalue := ih (List.forall_mem_singleton.mpr ((List.forall_mem_singleton.mp hvs).2 e init))
    refine List.forall_mem_singleton.mpr ⟨rfl, fun a ha => ?_⟩
    cases ha
    exact hvalue _ (List.mem_singleton_self _)
  | @varDecl p d decls n n' values ih =>
    have hall : d.All (startsPlain · = true) := hvs _ (List.mem_singleton_self _)
    have hdecls := ih (List.forall_mem_map.mpr fun x hx =>
      ⟨((VarDecl.all_iff.mp hall).2 x hx).1, ((VarDecl.all_iff.mp hall).2 x hx).2.2⟩)
    have hall' : VarDecl.All (startsPlain · = true) { d with decls } := .intro rfl fun y hy => by
      obtain ⟨v, hv, halike⟩ := values.alike _ (List.mem_map_of_mem hy)
      obtain ⟨x, hx, rfl⟩ := List.mem_map.mp hv
      exact ⟨rfl, halike.2.2, (hdecls _ (List.mem_map_of_mem hy)).2⟩
    exact List.forall_mem_singleton.mpr hall'
  | @block p pos scope list list' n n1 n' enters code ih =>
    have hall : Stmt.All (startsPlain · = true) (.block pos scope list) := hvs _ (List.mem_singleton_self _)
    have hlist := ih (List.forall_mem_map.mpr fun s hs => hall.stmts hs)
    exact starts_stmt rfl nofun nofun (List.forall_mem_nil _)
      fun s hs => hlist _ (List.mem_map_of_mem hs)
  | @simple p s s' n n' source result plain bodies steps ih =>
    have hall : s.All (startsPlain · = true) := hvs _ (List.mem_singleton_self _)
    have hsteps := ih fun v hv => by
      rcases (Stmt.mem_steps source).mp hv with ⟨e, he, rfl⟩ | ⟨a, ha, rfl⟩
      · exact hall.exprs he
      · exact hall.stmts ha
    refine starts_stmt ?_ (fun d hd => ?_) (fun _ _ h => ?_)
      (fun e he => hsteps _ ((Stmt.mem_steps result).mpr (.inl ⟨e, he, rfl⟩)))
      fun a ha => hsteps _ ((Stmt.mem_steps result).mpr (.inr ⟨a, ha, rfl⟩))
    · cases s' <;> first | rfl | cases result
    · rw [Stmt.decl?_of_isSimple result] at hd
      cases hd
    · subst h
      cases result
  | @forLoop p pos scope init init' test test' update update' b b' head n n1 n2 n' enters start body rest ihs ihr =>
    have hall : Stmt.All (startsPlain · = true) (.forLoop pos scope init test update b) :=
      hvs _ (List.mem_singleton_self _)
    have hstart := ihs (List.forall_mem_map.mpr fun a ha => hall.stmts (List.mem_append_left _ ha))
    have hrest := ihr (all_forLoop hall)
    simp only [List.forall_mem_append, List.forall_mem_map, List.forall_mem_singleton] at hrest
    refine starts_stmt ?_ nofun nofun
      (List.forall_mem_append.mpr ⟨hrest.1, hrest.2.1⟩) (List.forall_mem_append.mpr
        ⟨fun a ha => hstart _ (List.mem_map_of_mem ha), List.forall_mem_singleton.mpr hrest.2.2⟩)
    cases init' with
    | none => rfl
    | some i =>
      obtain ⟨j, hj, halike, -⟩ := start.alike_stmt (List.mem_map_of_mem (List.mem_singleton_self i))
      have hplain : startsPlain (.stmt (.forLoop pos scope init test update b)) = true := hall.self rfl
      rw [show init = some j by simpa using hj] at hplain
      exact halike.trans hplain
  | @forIn p pos scope of decl target right right' b b' head n n1 n2 n' keys enters body rest ihk ihr =>
    have hall : Stmt.All (startsPlain · = true) (.forIn pos scope of decl target right b) :=
      hvs _ (List.mem_singleton_self _)
    have hright := ihk (List.forall_mem_singleton.mpr hall.forIn.1) _ (List.mem_singleton_self _)
    have hbody := ihr (List.forall_mem_singleton.mpr hall.forIn.2) _ (List.mem_singleton_self _)
    exact starts_stmt rfl (fun d hd => hall.decl hd) nofun (List.forall_mem_append.mpr
      ⟨fun e he => hall.exprs (List.mem_append_left _ he), List.forall_mem_singleton.mpr hright⟩)
      (List.forall_mem_singleton.mpr hbody)

/-! ## Scripts -/

theorem scoped_initial : initial.Scoped := by
  have hbindings (s : ScopeId) : (initial.scope s).bindings = [] := by
    by_cases hs : s < initial.scopes.size
    · obtain rfl : s = 0 := Nat.lt_one_iff.mp hs
      rfl
    · rw [scope_of_ge _ (Nat.le_of_not_lt hs)]
      rfl
  constructor
  case mem_bindings =>
    intro s b
    rw [hbindings]
    exact ⟨nofun, fun hb => absurd hb.1 (Nat.not_lt_zero b)⟩
  case nodup => exact fun s => hbindings s ▸ List.nodup_nil
  case binding_scope_lt | name_inj => exact fun hb => absurd hb (Nat.not_lt_zero _)
  -- The script has the only scope and is the only function.
  case function_outer | parent_lt =>
    intro f g hf hparent
    obtain rfl : f = 0 := Nat.lt_one_iff.mp hf
    cases hparent
  all_goals
    intro i hi
    obtain rfl : i = 0 := Nat.lt_one_iff.mp hi
    simp [initial, Names.scope, Names.function, topFunc]

theorem not_hasParam (hf : n.functions = initial.functions) {f : FuncId} {name : String} : ¬ n.HasParam f name := by
  rintro ⟨x, hx, -⟩
  have hx : x ∈ (initial.function f).params := by rwa [Names.function, hf] at hx
  by_cases hlt : f < initial.functions.size
  · obtain rfl : f = 0 := Nat.lt_one_iff.mp hlt
    cases hx
  · rw [function_of_ge _ (Nat.le_of_not_lt hlt)] at hx
    cases hx

theorem inOrder_initial : initial.InOrder Q R :=
  ⟨scoped_initial, ⟨fun {b} hb => absurd hb (Nat.not_lt_zero b), fun {b} hb => absurd hb (Nat.not_lt_zero b)⟩,
    fun _ _ h => absurd h (not_hasParam rfl)⟩

/-- A binding that can be made global. -/
structure Globalizable (n : Names) (b : BindingId) : Prop where
  scope : (n.binding b).scope = 0
  pinned : (n.binding b).pinned = false
  param : (n.binding b).kind ≠ .param
  self : (n.binding b).kind ≠ .self

/-- Making bindings of the script's own scope global keeps names in order. -/
theorem inOrder_globals {bs : List BindingId} (h : n.InOrder Q R) (hbs : ∀ b, b ∈ bs → Globalizable n b) :
    let n' := bs.foldl (fun n b =>
      let x := n.binding b
      let n := n.modifyBinding b fun x => { x with isGlobal := true, output := x.name }
      if x.kind = .function then n else { n with globals := n.globals ++ [x.name] }) n
    n'.InOrder Q R ∧ n.Grows n' ∧ n'.functions = n.functions := by
  induction bs generalizing n with
  | nil => exact ⟨h, .refl n, rfl⟩
  | cons b bs ih =>
    have hb := hbs b List.mem_cons_self
    let m := n.modifyBinding b fun x => { x with isGlobal := true, output := x.name }
    have hm : m.InOrder Q R := h.modifyBinding (fun _ => rfl) (fun _ => rfl) (fun _ => id) fun _ =>
      ⟨fun hp => absurd (hb.pinned.symm.trans hp) Bool.false_ne_true, fun _ => ⟨hb.scope, rfl, hb.param, hb.self⟩,
        fun hk => absurd hk hb.param, fun hk => absurd hk hb.self⟩
    have hrest (c : BindingId) (hc : c ∈ bs) : Globalizable m c := by
      obtain ⟨hscope, hpinned, hparam, hself⟩ := hbs c (List.mem_cons_of_mem _ hc)
      refine ⟨?_, ?_, ?_, ?_⟩ <;> rw [binding_modifyBinding] <;> split <;> assumption
    have hg : n.Grows m := .modifyBinding n b (fun _ => rfl) (fun _ => rfl) fun _ => id
    rw [List.foldl_cons]
    dsimp only
    split
    · obtain ⟨hin, hgrows, hfunctions⟩ := ih hm hrest
      exact ⟨hin, hg.trans hgrows, hfunctions⟩
    · have hm' : Names.InOrder Q R { m with globals := m.globals ++ [(n.binding b).name] } :=
        ⟨hm.scopes.of_remarks ⟨rfl, rfl, rfl, fun _ => rfl, fun _ => rfl, fun _ => rfl, fun _ => rfl⟩,
          ⟨hm.kinds.declared, fun hb => let k := hm.kinds.fits hb; ⟨k.pinned, k.global, k.param, k.self⟩⟩,
          hm.params⟩
      obtain ⟨hin, hgrows, hfunctions⟩ := ih hm' fun c hc =>
        ⟨(hrest c hc).scope, (hrest c hc).pinned, (hrest c hc).param, (hrest c hc).self⟩
      have hg' : n.Grows { m with globals := m.globals ++ [(n.binding b).name] } := { hg with }
      exact ⟨hin, hg'.trans hgrows, hfunctions⟩

/-- The names that the statements of a script are resolved in. -/
theorem script_ok {s r : Script} (h : (Resolution.script s).run {} = .ok (r, n')) :
    ∃ n, (∀ R : String → Prop, (∀ a, a ∈ s.body → ∀ x, x ∈ hoisted a → R x) → n.InOrder Q R) ∧
      n.functions = initial.functions ∧ Place.Stands { func := topFunc, scope := 0 } n ∧
      (∀ a, a ∈ s.body → Declares n 0 a) ∧
      Runs { func := topFunc, scope := 0 } (s.body.map .stmt) n (r.body.map .stmt) n' := by
  obtain ⟨n1, n2, _, _, e1, e2, hrun⟩ := script_runs h
  have hlt : 0 < initial.scopes.size := Nat.zero_lt_one
  have hfunctions : n1.functions = initial.functions := by
    rw [hoistFunction_ok e1]
    exact functions_enter ..
  -- Nothing is captured before the globals are known, so the bindings of the script's own scope can be.
  have hglobals (R : String → Prop) (hR : ∀ a, a ∈ s.body → ∀ x, x ∈ hoisted a → R x) :
      (n2.InOrder Q R ∧ n1.Grows n2 ∧ n2.functions = n1.functions) ∧ initial.Grows n1 ∧ n1.Scoped := by
    have hsteps : Steps (fun _ => False) R 0 initial n1 := by
      rw [hoistFunction_ok e1]
      refine steps_enter (Nat.le_refl _) hlt fun d hd => ?_
      obtain ⟨a, ha, hd⟩ := mem_hoisted_of_mem_bodyEntries hd
      exact hR a ha _ hd
    have hn1 := inOrder_initial.steps hsteps
    have hg := Grows.of_steps hsteps
    have hfree : n1.InOrder Q R := by
      refine ⟨hn1.scopes, ⟨hn1.kinds.declared, fun hb => ?_⟩, hn1.params⟩
      have hfit := hn1.kinds.fits hb
      exact ⟨fun hp => (hfit.pinned hp).1.elim, hfit.global, hfit.param, hfit.self⟩
    refine ⟨?_, hg, hn1.scopes⟩
    cases e2
    refine inOrder_globals hfree fun b hb => ?_
    obtain ⟨hb, hscope⟩ := hn1.scopes.mem_bindings.mp hb
    have hfit := hn1.kinds.fits hb
    refine ⟨hscope, ?_, fun hk => not_hasParam hfunctions (hfit.param hk).2.1, fun hk => ?_⟩
    · rw [← Bool.not_eq_true]
      exact fun hp => (hfit.pinned hp).1
    · have howner : (n1.scope (n1.binding b).scope).owner = 0 := by
        rw [hscope, hg.owner hlt]
        rfl
      have hx := (hfit.self hk).2.2.1
      rw [howner, hg.isExpression Nat.zero_lt_one] at hx
      cases hx
  obtain ⟨⟨hin, hgrows, hsame⟩, hg, hn1⟩ := hglobals (fun _ => True) fun _ _ _ _ => trivial
  have hall := hg.trans hgrows
  refine ⟨n2, fun R hR => (hglobals R hR).1.1, hsame.trans hfunctions,
    ⟨Nat.lt_of_lt_of_le hlt hall.scopes_le, hall.owner hlt⟩, fun a ha => ?_, hrun⟩
  refine Declares.mono ?_ hgrows hn1 hin.scopes
  rw [hoistFunction_ok e1]
  exact declares_enter scoped_initial hlt (List.subset_append_right _ _) ha

end Resolution

/-- The names of a resolved script, before those of the output are chosen. -/
structure Names.Resolved (Q : String → Prop) (n : Names) : Prop where
  inOrder : n.InOrder Q n.Spells
  selves : ∀ {f}, f < n.functions.size → n.NamesItself f

open Resolution Names in
/-- Resolving a script puts its names in order. -/
theorem Script.resolution_ok {Q : String → Prop} {s r : Script} {n : Names}
    (h : (Resolution.script s).run {} = .ok (r, n)) (hQ : s.All (Node.Refers Q)) : n.Resolved Q := by
  obtain ⟨n0, hin, hfunctions, hp, -, hrun⟩ := script_ok (Q := Q) h
  have hn0 := (hin (fun _ => True) fun _ _ _ _ => trivial).scopes
  have hbody := hrun.outcome hn0 hp (List.forall_mem_map.mpr fun a ha => hQ.body ha)
  have hlast := (hin n.Spells fun a ha => hbody.spelled _ (List.mem_map_of_mem ha)).steps hbody.resolves.steps
  refine ⟨hlast, fun {f} hf => ?_⟩
  by_cases hf' : f < n0.functions.size
  · have hself : n0.NamesItself f := by
      unfold NamesItself
      rw [hfunctions] at hf'
      obtain rfl : f = 0 := Nat.lt_one_iff.mp hf'
      rw [Names.function, hfunctions]
      exact ⟨.inl rfl, fun h => by cases h⟩
    exact hself.mono hbody.resolves.grows hn0 hlast.scopes hf'
  · exact hbody.resolves.selves (Nat.le_of_not_lt hf') hf

/-- The names of a resolved script are those of its resolution with their outputs. -/
theorem Script.resolve_ok {s r : Script} {m : Names} (h : s.resolve = .ok (r, m)) :
    ∃ n : Names, (Resolution.script s).run {} = .ok (r, n) ∧ m = n.nameAll := by
  unfold Script.resolve at h
  cases hrun : (Resolution.script s).run {} with
  | error => rw [hrun] at h; cases h
  | ok x =>
    rw [hrun] at h
    cases h
    exact ⟨x.2, rfl, rfl⟩

/-- The loops of a resolved script start with declarations or expressions if those of the script do. -/
theorem Script.All.of_resolve {s r : Script} {names : Names} (h : s.resolve = .ok (r, names))
    (hs : s.All (startsPlain · = true)) : r.All (startsPlain · = true) := by
  obtain ⟨n, hresolution, -⟩ := Script.resolve_ok h
  obtain ⟨n1, n2, _, _, -, -, hrun⟩ := Resolution.script_runs hresolution
  have hbody := hrun.starts (List.forall_mem_map.mpr fun a ha => hs.body ha)
  intro v hv
  unfold Walk.script at hv
  rcases List.mem_cons.mp hv with rfl | hv
  · rfl
  · obtain ⟨a, ha, hv⟩ := Walk.mem_stmts.mp hv
    exact List.forall_mem_map.mp hbody a ha v hv

end ScriptOptimizer
