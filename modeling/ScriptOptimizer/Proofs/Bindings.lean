import ScriptOptimizer.Proofs.Scopes

/-!
# Bindings under construction

What the steps of resolution keep: names stay as they are once they are there, and the kind of a binding
says where it stands and which name it has in the output.
-/

namespace ScriptOptimizer.Names

variable {Q R : String → Prop} {k : ScopeId} {n n' n'' : Names}

variable {name : String} {s : ScopeId} {pos : Position} {b : BindingId}

/-! ## Growing names -/

variable {f : FuncId}

/-- Names to which others were added. -/
structure Grows (n n' : Names) : Prop where
  scopes_le : n.scopes.size ≤ n'.scopes.size
  bindings_le : n.bindings.size ≤ n'.bindings.size
  functions_le : n.functions.size ≤ n'.functions.size
  owner : ∀ {s}, s < n.scopes.size → (n'.scope s).owner = (n.scope s).owner
  name : ∀ {b}, b < n.bindings.size → (n'.binding b).name = (n.binding b).name
  scope : ∀ {b}, b < n.bindings.size → (n'.binding b).scope = (n.binding b).scope
  kind : ∀ {b}, b < n.bindings.size → (n.binding b).kind = .function → (n'.binding b).kind = .function
  function_name : ∀ {f}, f < n.functions.size → (n'.function f).name = (n.function f).name
  function_scope : ∀ {f}, f < n.functions.size → (n'.function f).scope = (n.function f).scope
  isExpression : ∀ {f}, f < n.functions.size → (n'.function f).isExpression = (n.function f).isExpression
  reserved : ∀ {x}, x ∈ n.reserved → x ∈ n'.reserved

namespace Grows

theorem refl (n : Names) : n.Grows n :=
  ⟨Nat.le_refl _, Nat.le_refl _, Nat.le_refl _, fun _ => rfl, fun _ => rfl, fun _ => rfl, fun _ => id,
    fun _ => rfl, fun _ => rfl, fun _ => rfl, id⟩

theorem trans (h : n.Grows n') (k : n'.Grows n'') : n.Grows n'' where
  scopes_le := Nat.le_trans h.scopes_le k.scopes_le
  bindings_le := Nat.le_trans h.bindings_le k.bindings_le
  functions_le := Nat.le_trans h.functions_le k.functions_le
  owner hs := (k.owner (Nat.lt_of_lt_of_le hs h.scopes_le)).trans (h.owner hs)
  name hb := (k.name (Nat.lt_of_lt_of_le hb h.bindings_le)).trans (h.name hb)
  scope hb := (k.scope (Nat.lt_of_lt_of_le hb h.bindings_le)).trans (h.scope hb)
  kind hb hk := k.kind (Nat.lt_of_lt_of_le hb h.bindings_le) (h.kind hb hk)
  function_name hf := (k.function_name (Nat.lt_of_lt_of_le hf h.functions_le)).trans (h.function_name hf)
  function_scope hf :=
    (k.function_scope (Nat.lt_of_lt_of_le hf h.functions_le)).trans (h.function_scope hf)
  isExpression hf := (k.isExpression (Nat.lt_of_lt_of_le hf h.functions_le)).trans (h.isExpression hf)
  reserved hx := k.reserved (h.reserved hx)

theorem spells (h : n.Grows n') (hs : n.Spells name) : n'.Spells name :=
  hs.mono fun _ => h.reserved

theorem reserve (n : Names) (name : String) : n.Grows (n.reserve name) := by
  unfold Names.reserve
  split
  · exact refl n
  · exact { refl n with reserved := fun hx => Std.TreeSet.mem_insert.mpr (.inr hx) }

theorem modifyBinding (n : Names) (b : BindingId) {f : Binding → Binding} (hname : ∀ x, (f x).name = x.name)
    (hscope : ∀ x, (f x).scope = x.scope) (hkind : ∀ x, x.kind = .function → (f x).kind = .function) :
    n.Grows (n.modifyBinding b f) :=
  { refl n with
    bindings_le := Nat.le_of_eq (n.bindings_size_modifyBinding b f).symm
    name := fun _ => n.binding_modifyBinding_congr Binding.name hname b _
    scope := fun _ => n.binding_modifyBinding_congr Binding.scope hscope b _
    kind := fun _ hk => by
      rw [binding_modifyBinding]
      split
      · exact hkind _ hk
      · exact hk }

theorem modifyFunction (n : Names) (f : FuncId) {h : Signature → Signature} (hname : ∀ x, (h x).name = x.name)
    (hscope : ∀ x, (h x).scope = x.scope) (hx : ∀ x, (h x).isExpression = x.isExpression) :
    n.Grows (n.modifyFunction f h) :=
  { refl n with
    functions_le := Nat.le_of_eq (n.functions_size_modifyFunction f h).symm
    function_name := fun _ => n.function_modifyFunction_congr Signature.name hname f _
    function_scope := fun _ => n.function_modifyFunction_congr Signature.scope hscope f _
    isExpression := fun _ => n.function_modifyFunction_congr Signature.isExpression hx f _ }

theorem addBinding (n : Names) (s : ScopeId) (x : Binding) : n.Grows (n.addBinding s x) :=
  { refl n with
    scopes_le := Nat.le_of_eq (n.scopes_size_addBinding s x).symm
    bindings_le := (n.bindings_size_addBinding s x).symm ▸ Nat.le_succ _
    owner := fun _ => by
      rw [scope_addBinding]
      split <;> rfl
    name := fun hb => by rw [binding_addBinding, if_neg (Nat.ne_of_lt hb)]
    scope := fun hb => by rw [binding_addBinding, if_neg (Nat.ne_of_lt hb)]
    kind := fun hb hk => by rwa [binding_addBinding, if_neg (Nat.ne_of_lt hb)] }

theorem addScope (n : Names) (x : Scope) : n.Grows (n.addScope x) :=
  { refl n with
    scopes_le := (n.scopes_size_addScope x).symm ▸ Nat.le_succ _
    owner := fun hs => by rw [scope_addScope, if_neg (Nat.ne_of_lt hs)] }

theorem addSignature (n : Names) (x : Signature) : n.Grows (n.addSignature x) :=
  { refl n with
    functions_le := (n.functions_size_addSignature x).symm ▸ Nat.le_succ _
    function_name := fun hf => by rw [function_addSignature, if_neg (Nat.ne_of_lt hf)]
    function_scope := fun hf => by rw [function_addSignature, if_neg (Nat.ne_of_lt hf)]
    isExpression := fun hf => by rw [function_addSignature, if_neg (Nat.ne_of_lt hf)] }

theorem declare (n : Names) (s : ScopeId) (name : String) (kind : BindingKind) (pos : Position) :
    n.Grows (n.declare s name kind pos).1 := by
  cases hb : n.lookup s name with
  | some b =>
    rw [n.declare_of_some hb]
    dsimp only
    split
    · exact modifyBinding n b (fun _ => rfl) (fun _ => rfl) fun _ _ => rfl
    · exact refl n
  | none =>
    rw [n.declare_of_none hb]
    exact addBinding n s _

theorem addParam (n : Names) (s : ScopeId) (f : FuncId) (name : String) (pos : Position) :
    (n.declare s name .param pos).1.Grows (n.addParam s f name pos) := by
  refine trans ?_ (modifyFunction _ _ (fun _ => rfl) (fun _ => rfl) fun _ => rfl)
  exact modifyBinding _ _ (fun _ => rfl) (fun _ => rfl) fun _ => id

theorem openBlock (n : Names) (s : ScopeId) : n.Grows (n.openBlock s).1 := addScope n _

theorem of_step (h : Step Q R k n n') : n.Grows n' := by
  cases h with
  | reserve name => exact reserve n name
  | assign name => exact { refl n with }
  | useArguments f => exact modifyFunction n f (fun _ => rfl) (fun _ => rfl) fun _ => rfl
  | pin b => exact modifyBinding n b (fun _ => rfl) (fun _ => rfl) fun _ => id
  | declare => exact declare n _ _ _ _
  | addParam => exact (declare n _ _ _ _).trans (addParam n _ _ _ _)
  | addLexical | addSelf =>
    exact (declare n _ _ _ _).trans (modifyBinding _ _ (fun _ => rfl) (fun _ => rfl) fun _ => id)
  | openBlock hs => exact openBlock n _
  | addFunction name isExpression hs => exact (addScope n _).trans (addSignature _ _)
  | markParams f => exact modifyFunction n f (fun _ => rfl) (fun _ => rfl) fun _ => rfl

theorem of_steps (h : Steps Q R k n n') : n.Grows n' := by
  induction h with
  | refl => exact refl n
  | tail _ hs ih => exact ih.trans (of_step hs)

/-- A name that a scope declares stays declared. -/
theorem lookup (h : n.Grows n') (hn : n.Scoped) (hn' : n'.Scoped)
    (hb : n.lookup s name = some b) : n'.lookup s name = some b := by
  obtain ⟨hlt, rfl, rfl⟩ := hn.lookup_eq_some.mp hb
  exact hn'.lookup_eq_some.mpr ⟨Nat.lt_of_lt_of_le hlt h.bindings_le, h.scope hlt, h.name hlt⟩

theorem isSome_lookup (h : n.Grows n') (hn : n.Scoped) (hn' : n'.Scoped)
    (hs : (n.lookup s name).isSome = true) : (n'.lookup s name).isSome = true := by
  obtain ⟨b, hb⟩ := Option.isSome_iff_exists.mp hs
  rw [h.lookup hn hn' hb]
  rfl

end Grows

/-! ## Kinds of bindings -/

def HasParam (n : Names) (f : FuncId) (name : String) : Prop :=
  ∃ x, x ∈ (n.function f).params ∧ x.name = name

/-- What the kind of a binding and its marks say. -/
structure Fits (Q : String → Prop) (n : Names) (x : Binding) : Prop where
  pinned : x.pinned = true → Q x.name ∧ x.isGlobal = false
  global : x.isGlobal = true → x.scope = 0 ∧ x.output = x.name ∧ x.kind ≠ .param ∧ x.kind ≠ .self
  param : x.kind = .param → x.scope = (n.function (n.scope x.scope).owner).scope ∧
    n.HasParam (n.scope x.scope).owner x.name ∧ x.output = x.name
  self : x.kind = .self → x.scope = (n.function (n.scope x.scope).owner).scope ∧
    ¬ n.HasParam (n.scope x.scope).owner x.name ∧
    (n.function (n.scope x.scope).owner).isExpression = true ∧
    x.name = (n.function (n.scope x.scope).owner).name ∧ x.name ≠ "" ∧ x.output = x.name

/-- What the kinds of all bindings and their marks say. -/
structure Kinds (Q R : String → Prop) (n : Names) : Prop where
  declared : ∀ {b}, b < n.bindings.size → R (n.binding b).name
  fits : ∀ {b}, b < n.bindings.size → n.Fits Q (n.binding b)

/-- Every parameter has a binding in the scope of its function. -/
def BindsParams (n : Names) : Prop :=
  ∀ f name, n.HasParam f name → ∃ b, n.lookup (n.function f).scope name = some b

variable {x : Binding}

/-- What a binding says is still so when its function has the same parameters. -/
theorem Fits.of_grows (h : n.Fits Q x) (hg : n.Grows n') (hn : n.Scoped) (hx : x.scope < n.scopes.size)
    (hparams : n'.HasParam (n.scope x.scope).owner x.name ↔ n.HasParam (n.scope x.scope).owner x.name) :
    n'.Fits Q x := by
  have hf := hn.owner_lt hx
  refine ⟨h.pinned, h.global, fun hk => ?_, fun hk => ?_⟩
  · rw [hg.owner hx, hg.function_scope hf, hparams]
    exact h.param hk
  · rw [hg.owner hx, hg.function_scope hf, hg.isExpression hf, hg.function_name hf, hparams]
    exact h.self hk

theorem hasParam_of_params (h : (n'.function f).params = (n.function f).params) (name : String) :
    n'.HasParam f name ↔ n.HasParam f name := by
  rw [HasParam, h]
  rfl

namespace Kinds

/-- Names with more scopes and functions, but the same bindings. -/
theorem of_grows (h : n.Kinds Q R) (hg : n.Grows n') (hn : n.Scoped) (hb : n'.bindings = n.bindings)
    (hparams : ∀ {f}, f < n.functions.size → ∀ name, n'.HasParam f name ↔ n.HasParam f name) :
    n'.Kinds Q R := by
  have hbinding (b : BindingId) : n'.binding b = n.binding b := by
    rw [binding, hb]
    rfl
  refine ⟨fun {b} hlt => ?_, fun {b} hlt => ?_⟩ <;> rw [hb] at hlt <;> rw [hbinding]
  · exact h.declared hlt
  · have hs := hn.binding_scope_lt hlt
    exact (h.fits hlt).of_grows hg hn hs (hparams (hn.owner_lt hs) _)

theorem modifyBinding (h : n.Kinds Q R) (hn : n.Scoped) {f : Binding → Binding}
    (hname : ∀ x, (f x).name = x.name) (hscope : ∀ x, (f x).scope = x.scope)
    (hkind : ∀ x, x.kind = .function → (f x).kind = .function)
    (hf : b < n.bindings.size → n.Fits Q (f (n.binding b))) : (n.modifyBinding b f).Kinds Q R := by
  have hg := Grows.modifyBinding n b hname hscope hkind
  refine ⟨fun {c} hc => ?_, fun {c} hc => ?_⟩ <;> rw [bindings_size_modifyBinding] at hc
  · rw [hg.name hc]
    exact h.declared hc
  · have hfit : n.Fits Q ((n.modifyBinding b f).binding c) := by
      rw [binding_modifyBinding]
      split
      · next hcb =>
        obtain ⟨rfl, hb⟩ := hcb
        exact hf hb
      · exact h.fits hc
    exact hfit.of_grows hg hn (hg.scope hc ▸ hn.binding_scope_lt hc) Iff.rfl

theorem addBinding (h : n.Kinds Q R) (hn : n.Scoped) (hs : s < n.scopes.size)
    (hx : x.scope = s) (hR : R x.name) (hfit : n.Fits Q x) : (n.addBinding s x).Kinds Q R := by
  have hg := Grows.addBinding n s x
  refine ⟨fun {c} hc => ?_, fun {c} hc => ?_⟩ <;> rw [bindings_size_addBinding] at hc <;>
    rw [binding_addBinding] <;> split
  · exact hR
  · next hne => exact h.declared (Nat.lt_of_le_of_ne (Nat.le_of_lt_succ hc) hne)
  · exact hfit.of_grows hg hn (hx ▸ hs) Iff.rfl
  · next hne =>
    have hlt := Nat.lt_of_le_of_ne (Nat.le_of_lt_succ hc) hne
    exact (h.fits hlt).of_grows hg hn (hn.binding_scope_lt hlt) Iff.rfl

/-- A declaration adds a binding or leaves the one that is there. -/
theorem declare (h : n.Kinds Q R) (hn : n.Scoped) (hs : s < n.scopes.size)
    {kind : BindingKind} (hR : R name)
    (hfit : n.lookup s name = none → n.Fits Q { name, kind, scope := s, pos }) :
    (n.declare s name kind pos).1.Kinds Q R := by
  cases hb : n.lookup s name with
  | some b =>
    rw [n.declare_of_some hb]
    dsimp only
    split
    · refine h.modifyBinding hn (fun _ => rfl) (fun _ => rfl) (fun _ _ => rfl) fun hlt => ?_
      have hold := h.fits hlt
      exact ⟨hold.pinned, fun hglobal => ⟨(hold.global hglobal).1, (hold.global hglobal).2.1, nofun, nofun⟩,
        nofun, nofun⟩
    · exact h
  | none =>
    rw [n.declare_of_none hb]
    exact h.addBinding hn hs rfl hR (hfit hb)

end Kinds

/-! ## Parameters and own names -/

theorem modifyBinding_addBinding (s : ScopeId) (x : Binding) (f : Binding → Binding) :
    (n.addBinding s x).modifyBinding n.bindings.size f = n.addBinding s (f x) := by
  have hpush : (n.bindings.push x).modify n.bindings.size f = n.bindings.push (f x) := by
    refine Array.ext (by simp) fun i h1 h2 => ?_
    simp only [Array.getElem_modify, Array.getElem_push]
    grind
  simp only [addBinding, Names.modifyBinding, hpush]

/-- The names with one more parameter of a function. -/
def extendParams (n : Names) (f : FuncId) (name : String) : Names :=
  n.modifyFunction f fun g => { g with params := g.params ++ [{ name }] }

theorem addParam_of_some
    (hb : n.lookup s name = some b) : n.addParam s f name pos =
      (n.extendParams f name).modifyBinding b fun x => { x with onEntry := true, output := name } := by
  rw [addParam, n.declare_of_some hb]
  rfl

theorem addParam_of_none (hb : n.lookup s name = none) : n.addParam s f name pos =
      (n.extendParams f name).addBinding s
        { name, kind := .param, scope := s, pos, onEntry := true, output := name } := by
  rw [addParam, n.declare_of_none hb]
  dsimp only
  rw [modifyBinding_addBinding]
  rfl

theorem addSelf_of_none (hb : n.lookup s name = none) : n.addSelf s name pos =
      n.addBinding s { name, kind := .self, scope := s, pos, onEntry := true, output := name } := by
  rw [addSelf, n.declare_of_none hb]
  dsimp only
  rw [modifyBinding_addBinding]

theorem hasParam_extendParams (hf : f < n.functions.size) (g : FuncId) (name other : String) :
    (n.extendParams f name).HasParam g other ↔ n.HasParam g other ∨ (g = f ∧ other = name) := by
  unfold HasParam extendParams
  rw [function_modifyFunction]
  by_cases hg : g = f
  · subst g
    simp only [hf, and_self, if_true, List.mem_append, List.mem_singleton]
    constructor
    · rintro ⟨x, hx | rfl, rfl⟩
      · exact .inl ⟨x, hx, rfl⟩
      · exact .inr ⟨trivial, rfl⟩
    · rintro (⟨x, hx, rfl⟩ | ⟨-, rfl⟩)
      · exact ⟨x, .inl hx, rfl⟩
      · exact ⟨_, .inr rfl, rfl⟩
  · simp [hg]

theorem Grows.extendParams (n : Names) (f : FuncId) (name : String) : n.Grows (n.extendParams f name) :=
  .modifyFunction n f (fun _ => rfl) (fun _ => rfl) fun _ => rfl

theorem Scoped.extendParams (h : n.Scoped) (f : FuncId) (name : String) : (n.extendParams f name).Scoped :=
  h.of_remarks (.modifyFunction f (fun _ => rfl) fun _ => rfl)

namespace Kinds

/-- A function gets one more parameter, whose name is not the own name of the function. -/
theorem extendParams (h : n.Kinds Q R) (hn : n.Scoped) {f : FuncId} (hf : f < n.functions.size)
    (hself : ∀ b, n.lookup (n.function f).scope name = some b → (n.binding b).kind ≠ .self) :
    (n.extendParams f name).Kinds Q R := by
  have hg := Grows.extendParams n f name
  refine ⟨fun {b} hb => h.declared hb, fun {b} hb => ?_⟩
  have hb' : b < n.bindings.size := hb
  have hs := hn.binding_scope_lt hb'
  have hfit := h.fits hb'
  have howner := hn.owner_lt hs
  change (n.extendParams f name).Fits Q (n.binding b)
  refine ⟨hfit.pinned, hfit.global, fun hk => ?_, fun hk => ?_⟩
  · rw [hg.owner hs, hg.function_scope howner, hasParam_extendParams hf]
    obtain ⟨hscope, hparam, houtput⟩ := hfit.param hk
    exact ⟨hscope, .inl hparam, houtput⟩
  · rw [hg.owner hs, hg.function_scope howner, hg.isExpression howner, hg.function_name howner,
      hasParam_extendParams hf]
    obtain ⟨hscope, hparam, hrest⟩ := hfit.self hk
    refine ⟨hscope, ?_, hrest⟩
    rintro (hold | ⟨hfunc, hname⟩)
    · exact hparam hold
    · refine hself b (hn.lookup_eq_some.mpr ⟨hb', ?_, hname⟩) hk
      rw [← hfunc]
      exact hscope

theorem addParam (h : n.Kinds Q R) (hn : n.Scoped) (hf : f < n.functions.size)
    (hself : ∀ b, n.lookup (n.function f).scope name = some b → (n.binding b).kind ≠ .self) (hR : R name) :
    (n.addParam (n.function f).scope f name pos).Kinds Q R := by
  have h' := h.extendParams hn hf hself
  have hn' := hn.extendParams f name
  have hs := hn.scope_lt hf
  cases hb : n.lookup (n.function f).scope name with
  | some b =>
    rw [addParam_of_some hb]
    refine h'.modifyBinding hn' (fun _ => rfl) (fun _ => rfl) (fun _ => id) fun hlt => ?_
    obtain ⟨-, -, hname⟩ := hn.lookup_eq_some.mp hb
    have hold := h'.fits hlt
    exact ⟨hold.pinned, fun hk => ⟨(hold.global hk).1, hname.symm, (hold.global hk).2.2⟩,
      fun hk => ⟨(hold.param hk).1, (hold.param hk).2.1, hname.symm⟩, fun hk => absurd hk (hself b hb)⟩
  | none =>
    rw [addParam_of_none hb]
    refine h'.addBinding hn' hs rfl hR ⟨nofun, nofun, fun _ => ?_, nofun⟩
    have howner := hn.owner_scope hf
    refine ⟨?_, ?_, rfl⟩
    · change (n.function f).scope = ((n.extendParams f name).function (n.scope (n.function f).scope).owner).scope
      rw [howner, (Grows.extendParams n f name).function_scope hf]
    · exact (hasParam_extendParams hf _ _ _).mpr (.inr ⟨howner, rfl⟩)

theorem addSelf (h : n.Kinds Q R) (hn : n.Scoped) (hf : f < n.functions.size)
    (hnone : n.lookup (n.function f).scope (n.function f).name = none) (hx : (n.function f).isExpression = true)
    (hname : (n.function f).name ≠ "") (hparams : n.BindsParams) (hR : R (n.function f).name) :
    (n.addSelf (n.function f).scope (n.function f).name pos).Kinds Q R := by
  rw [addSelf_of_none hnone]
  have howner := hn.owner_scope hf
  refine h.addBinding hn (hn.scope_lt hf) rfl hR ⟨nofun, nofun, nofun, fun _ => ?_⟩
  dsimp only
  rw [howner]
  refine ⟨rfl, fun hparam => ?_, hx, rfl, hname, rfl⟩
  obtain ⟨b, hb⟩ := hparams f _ hparam
  rw [hnone] at hb
  cases hb

end Kinds

theorem HasParam.lt (h : n.HasParam f name) : f < n.functions.size := by
  obtain ⟨x, hx, -⟩ := h
  refine Nat.lt_of_not_le fun hge => ?_
  rw [n.function_of_ge hge] at hx
  cases hx

/-- Names with more bindings, but the same parameters. -/
theorem BindsParams.of_grows (h : n.BindsParams) (hg : n.Grows n') (hn : n.Scoped) (hn' : n'.Scoped)
    (hparams : ∀ {f name}, n'.HasParam f name → n.HasParam f name) : n'.BindsParams := by
  intro f name hparam
  obtain ⟨b, hb⟩ := h f name (hparams hparam)
  rw [hg.function_scope (hparams hparam).lt]
  exact ⟨b, hg.lookup hn hn' hb⟩

theorem lookup_declare (hn : n.Scoped) (hs : s < n.scopes.size) (name : String)
    (kind : BindingKind) (pos : Position) :
    (n.declare s name kind pos).1.lookup s name = some (n.declare s name kind pos).2 := by
  have hn' := hn.declare hs name kind pos
  have hg := Grows.declare n s name kind pos
  cases hb : n.lookup s name with
  | some b =>
    have hb' := hg.lookup hn hn' hb
    rw [hb', n.declare_of_some hb]
  | none =>
    rw [hn'.lookup_eq_some, n.declare_of_none hb]
    simp [binding_addBinding]

/-! ## Names in order -/

/-- Names under construction are in order: their scopes, what the kinds of bindings say, and the bindings
of parameters. -/
structure InOrder (Q R : String → Prop) (n : Names) : Prop where
  scopes : n.Scoped
  kinds : n.Kinds Q R
  params : n.BindsParams

namespace InOrder

theorem reserve (h : n.InOrder Q R) (name : String) : (n.reserve name).InOrder Q R := by
  unfold Names.reserve
  split
  · exact h
  · exact ⟨h.scopes.of_remarks ⟨rfl, rfl, rfl, fun _ => rfl, fun _ => rfl, fun _ => rfl, fun _ => rfl⟩,
      ⟨h.kinds.declared, fun hb => let k := h.kinds.fits hb; ⟨k.pinned, k.global, k.param, k.self⟩⟩, h.params⟩

theorem modifyBinding (h : n.InOrder Q R) {f : Binding → Binding}
    (hname : ∀ x, (f x).name = x.name) (hscope : ∀ x, (f x).scope = x.scope)
    (hkind : ∀ x, x.kind = .function → (f x).kind = .function)
    (hf : b < n.bindings.size → n.Fits Q (f (n.binding b))) : (n.modifyBinding b f).InOrder Q R where
  scopes := h.scopes.of_remarks (.modifyBinding b hname hscope)
  kinds := h.kinds.modifyBinding h.scopes hname hscope hkind hf
  params := h.params.of_grows (.modifyBinding n b hname hscope hkind) h.scopes
    (h.scopes.of_remarks (.modifyBinding b hname hscope)) id

/-- A mark of a function that leaves the names of its parameters. -/
theorem modifyFunction (h : n.InOrder Q R) {f : FuncId} {g : Signature → Signature}
    (hname : ∀ x, (g x).name = x.name) (hscope : ∀ x, (g x).scope = x.scope)
    (hparent : ∀ x, (g x).parent = x.parent) (hx : ∀ x, (g x).isExpression = x.isExpression)
    (hparams : ∀ x, (g x).params.map Formal.name = x.params.map Formal.name) :
    (n.modifyFunction f g).InOrder Q R := by
  have hscoped : (n.modifyFunction f g).Scoped := h.scopes.of_remarks (.modifyFunction f hparent hscope)
  have hg := Grows.modifyFunction n f hname hscope hx
  have hnames (f' : FuncId) (name : String) : (n.modifyFunction f g).HasParam f' name ↔ n.HasParam f' name := by
    have := n.function_modifyFunction_congr (fun x => x.params.map Formal.name) hparams f f'
    simp only [HasParam, ← List.mem_map (f := Formal.name), this]
  exact ⟨hscoped, h.kinds.of_grows hg h.scopes rfl fun _ => hnames _,
    h.params.of_grows hg h.scopes hscoped (hnames _ _).mp⟩

theorem declare (h : n.InOrder Q R) (hs : s < n.scopes.size)
    {kind : BindingKind} (hparam : kind ≠ .param) (hself : kind ≠ .self) (hR : R name) :
    (n.declare s name kind pos).1.InOrder Q R := by
  have hg := Grows.declare n s name kind pos
  have hscoped := h.scopes.declare hs name kind pos
  refine ⟨hscoped, h.kinds.declare h.scopes hs hR fun _ => ?_, h.params.of_grows hg h.scopes hscoped ?_⟩
  · exact ⟨nofun, nofun, fun hk => absurd hk hparam, fun hk => absurd hk hself⟩
  · intro f x
    rw [HasParam, function, functions_declare]
    exact id

theorem addParam (h : n.InOrder Q R) {f : FuncId} (hf : f < n.functions.size)
    (hQ : Q name) (hself : ∀ b, n.lookup (n.function f).scope name = some b → (n.binding b).kind ≠ .self)
    (hR : R name) :
    (n.addParam (n.function f).scope f name pos).InOrder Q R := by
  have hs := h.scopes.scope_lt hf
  have hstep : Step Q R 0 n (n.addParam (n.function f).scope f name pos) := .addParam (Nat.zero_le _) hf hQ hself hR
  have hg := Grows.of_step hstep
  have hscoped := h.scopes.step hstep
  refine ⟨hscoped, h.kinds.addParam h.scopes hf hself hR, ?_⟩
  intro g other hparam
  have hcases : n.HasParam g other ∨ (g = f ∧ other = name) := by
    rw [← hasParam_extendParams hf]
    cases hb : n.lookup (n.function f).scope name with
    | some b => rwa [addParam_of_some hb] at hparam
    | none => rwa [addParam_of_none hb] at hparam
  rcases hcases with hold | ⟨rfl, rfl⟩
  · obtain ⟨b, hb⟩ := h.params g other hold
    rw [hg.function_scope hold.lt]
    exact ⟨b, hg.lookup h.scopes hscoped hb⟩
  · rw [hg.function_scope hf]
    exact ⟨_, (Grows.addParam n _ g other pos).lookup (h.scopes.declare hs _ _ _) hscoped
      (lookup_declare h.scopes hs other .param pos)⟩

theorem addSelf (h : n.InOrder Q R) {f : FuncId} (hf : f < n.functions.size)
    (hnone : n.lookup (n.function f).scope (n.function f).name = none)
    (hx : (n.function f).isExpression = true) (hname : (n.function f).name ≠ "")
    (hR : R (n.function f).name) :
    (n.addSelf (n.function f).scope (n.function f).name pos).InOrder Q R := by
  have hstep : Step Q R 0 n (n.addSelf (n.function f).scope (n.function f).name pos) :=
    .addSelf (Nat.zero_le _) hf hnone hx hname hR
  refine ⟨h.scopes.step hstep, h.kinds.addSelf h.scopes hf hnone hx hname h.params hR, ?_⟩
  refine h.params.of_grows (Grows.of_step hstep) h.scopes (h.scopes.step hstep) ?_
  rw [addSelf_of_none hnone]
  exact id

theorem addFunction (h : n.InOrder Q R) (hs : s < n.scopes.size) (name : String)
    (isExpression : Bool) : (n.addFunction s name isExpression).InOrder Q R := by
  have hstep : Step Q R 0 n (n.addFunction s name isExpression) := .addFunction name isExpression hs
  have hg := Grows.of_step hstep
  have hparams {f : FuncId} (hf : f < n.functions.size) (x : String) :
      (n.addFunction s name isExpression).HasParam f x ↔ n.HasParam f x :=
    hasParam_of_params (by rw [function_addFunction, if_neg (Nat.ne_of_lt hf)]) x
  refine ⟨h.scopes.step hstep, h.kinds.of_grows hg h.scopes rfl hparams, ?_⟩
  refine h.params.of_grows hg h.scopes (h.scopes.step hstep) fun {f x} hparam => ?_
  by_cases hf : f < n.functions.size
  · exact (hparams hf x).mp hparam
  · obtain ⟨y, hy, -⟩ := hparam
    rw [function_addFunction] at hy
    split at hy
    · cases hy
    · rw [n.function_of_ge (Nat.le_of_not_lt hf)] at hy
      cases hy

/-- Every step keeps names in order. -/
theorem step (h : n.InOrder Q R) (hs : Step Q R k n n') : n'.InOrder Q R := by
  cases hs with
  | reserve name => exact h.reserve name
  | assign name =>
    exact ⟨h.scopes.of_remarks ⟨rfl, rfl, rfl, fun _ => rfl, fun _ => rfl, fun _ => rfl, fun _ => rfl⟩,
      ⟨h.kinds.declared, fun hb => let k := h.kinds.fits hb; ⟨k.pinned, k.global, k.param, k.self⟩⟩, h.params⟩
  | useArguments f =>
    exact h.modifyFunction (fun _ => rfl) (fun _ => rfl) (fun _ => rfl) (fun _ => rfl) fun _ => rfl
  | pin b captured isLocal =>
    refine h.modifyBinding (fun _ => rfl) (fun _ => rfl) (fun _ => id) fun hb => ?_
    have hold := h.kinds.fits hb
    refine ⟨fun _ => ⟨captured, ?_⟩, hold.global, hold.param, hold.self⟩
    rw [← Bool.not_eq_true]
    exact fun hglobal => isLocal hglobal (hold.global hglobal).1
  | declare hk hs hparam hself declared => exact h.declare hs hparam hself declared
  | @addLexical s name kind pos inLoop hk hs hparam hself declared =>
    have h' : (n.declare s name kind pos).1.InOrder Q R := h.declare hs hparam hself declared
    refine h'.modifyBinding (fun _ => rfl) (fun _ => rfl) (fun _ => id) fun hb => ?_
    have hold := h'.kinds.fits hb
    exact ⟨hold.pinned, hold.global, hold.param, hold.self⟩
  | addParam hk hf named hself declared => exact h.addParam hf named hself declared
  | addSelf hk hf hnone hx hname declared => exact h.addSelf hf hnone hx hname declared
  | @openBlock s hs =>
    have hscoped := h.scopes.openBlock hs
    have hg := Grows.openBlock n s
    exact ⟨hscoped, h.kinds.of_grows hg h.scopes rfl fun _ _ => Iff.rfl, h.params.of_grows hg h.scopes hscoped id⟩
  | addFunction name isExpression hs => exact h.addFunction hs name isExpression
  | markParams f g hg =>
    refine h.modifyFunction (fun _ => rfl) (fun _ => rfl) (fun _ => rfl) (fun _ => rfl) fun x => ?_
    rw [List.map_map]
    exact List.map_congr_left fun y _ => hg y

theorem steps (h : n.InOrder Q R) (hs : Steps Q R k n n') : n'.InOrder Q R := by
  induction hs with
  | refl => exact h
  | tail _ hs ih => exact ih.step hs

end InOrder

end ScriptOptimizer.Names
