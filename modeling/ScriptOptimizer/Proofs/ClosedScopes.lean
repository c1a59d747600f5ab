import Mathlib.Data.List.Find
import ScriptOptimizer.Proofs.Bindings

/-!
# Closed scopes

A scope gets all its bindings when it is opened: what is resolved inside it later leaves it as it is. A
name therefore means the same behind the code in a scope as in front of it.
-/

namespace ScriptOptimizer.Names

variable {Q R : String → Prop} {n n' n'' : Names} {k k' s : ScopeId} {b : BindingId} {name : String}

/-! ## Chains of scopes -/

namespace Scoped

/-- A scope stands directly in one that was opened before it, or in none. -/
theorem outer_cases (h : n.Scoped) (hs : s < n.scopes.size) :
    (n.scope s).outer = [] ∨ ∃ u, u < s ∧ (n.scope s).outer = n.chain u := by
  cases hf : (n.scope s).isFunction with
  | false =>
    obtain ⟨u, hu, -, houter⟩ := h.block_outer hs hf
    exact .inr ⟨u, hu, houter⟩
  | true =>
    have heq := (h.isFunction_iff hs).mp hf
    have howner := h.owner_lt hs
    cases hparent : (n.function (n.scope s).owner).parent with
    | none =>
      have houter := h.top_outer howner hparent
      rw [← heq] at houter
      exact .inl houter
    | some g =>
      obtain ⟨u, hu, -, houter⟩ := h.function_outer howner hparent
      rw [← heq] at hu houter
      exact .inr ⟨u, hu, houter⟩

/-- The scopes around a scope were opened before it. -/
theorem mem_outer_lt (h : n.Scoped) (hs : s < n.scopes.size) {t : ScopeId} (ht : t ∈ (n.scope s).outer) : t < s := by
  induction s using Nat.strongRecOn with
  | ind s ih =>
    rcases h.outer_cases hs with houter | ⟨u, hu, houter⟩
    · rw [houter] at ht
      cases ht
    · rw [houter] at ht
      rcases List.mem_cons.mp ht with rfl | ht
      · exact hu
      · exact Nat.lt_trans (ih u hu (Nat.lt_trans hu hs) ht) hu

theorem mem_chain_le (h : n.Scoped) (hs : s < n.scopes.size) {t : ScopeId} (ht : t ∈ n.chain s) : t ≤ s := by
  rcases List.mem_cons.mp ht with rfl | ht
  · exact Nat.le_refl _
  · exact Nat.le_of_lt (h.mem_outer_lt hs ht)

/-- A scope is not one of those around it. -/
theorem not_mem_outer (h : n.Scoped) (hs : s < n.scopes.size) : s ∉ (n.scope s).outer := fun hmem =>
  Nat.lt_irrefl _ (h.mem_outer_lt hs hmem)

theorem nodup_chain (h : n.Scoped) (hs : s < n.scopes.size) : (n.chain s).Nodup := by
  induction s using Nat.strongRecOn with
  | ind s ih =>
    refine List.nodup_cons.mpr ⟨h.not_mem_outer hs, ?_⟩
    rcases h.outer_cases hs with houter | ⟨u, hu, houter⟩
    · rw [houter]
      exact List.nodup_nil
    · rw [houter]
      exact ih u hu (Nat.lt_trans hu hs)

end Scoped

/-! ## Names that leave scopes closed -/

/-- Names to which others were added, but not to the scopes below a bound. -/
structure Keeps (k : ScopeId) (n n' : Names) : Prop where
  grows : n.Grows n'
  last : n'.Scoped
  scope : ∀ {s}, s < k → n'.scope s = n.scope s
  outer : ∀ {s}, s < n.scopes.size → (n'.scope s).outer = (n.scope s).outer
  isGlobal : ∀ {b}, b < n.bindings.size → (n'.binding b).isGlobal = (n.binding b).isGlobal
  pinned : ∀ {b}, b < n.bindings.size → (n.binding b).pinned = true → (n'.binding b).pinned = true
  /-- A binding of these scopes is declared anew as before, and captured only if it is not. -/
  renewed : ∀ {b}, b < n.bindings.size → (n.binding b).scope < k →
    (n'.binding b).renewed? = (n.binding b).renewed? ∧
      ((n'.binding b).pinned = true → (n.binding b).pinned = true ∨ (n.binding b).renewed? = none)

/-- Names to which others were added, but not to the scopes that were there. -/
abbrev Later (n n' : Names) : Prop := Keeps n.scopes.size n n'

namespace Keeps

theorem refl (h : n.Scoped) : Keeps k n n :=
  ⟨.refl n, h, fun _ => rfl, fun _ => rfl, fun _ => rfl, fun _ => id, fun _ _ => ⟨rfl, .inl⟩⟩

theorem trans (h : Keeps k n n') (h' : Keeps k' n' n'') (hk : k ≤ k') : Keeps k n n'' where
  grows := h.grows.trans h'.grows
  last := h'.last
  scope hs := (h'.scope (Nat.lt_of_lt_of_le hs hk)).trans (h.scope hs)
  outer hs := (h'.outer (Nat.lt_of_lt_of_le hs h.grows.scopes_le)).trans (h.outer hs)
  isGlobal hb := (h'.isGlobal (Nat.lt_of_lt_of_le hb h.grows.bindings_le)).trans (h.isGlobal hb)
  pinned hb hp := h'.pinned (Nat.lt_of_lt_of_le hb h.grows.bindings_le) (h.pinned hb hp)
  renewed hb hs := by
    obtain ⟨hsame, hpinned⟩ := h.renewed hb hs
    obtain ⟨hsame', hpinned'⟩ := h'.renewed (Nat.lt_of_lt_of_le hb h.grows.bindings_le)
      (h.grows.scope hb ▸ Nat.lt_of_lt_of_le hs hk)
    exact ⟨hsame'.trans hsame, fun hp => (hpinned' hp).elim hpinned fun h => .inr (hsame ▸ h)⟩

/-- What comes later leaves closed what was there. -/
theorem later (h : Keeps k n n') (h' : n'.Later n'') (hk : k ≤ n.scopes.size) : Keeps k n n'' :=
  h.trans h' (Nat.le_trans hk h.grows.scopes_le)

/-- Marks of bindings and functions leave all scopes as they are. -/
theorem of_remarks (h : n.Scoped) (hg : n.Grows n') (hr : n.Remarks n')
    (hglobal : ∀ b, (n'.binding b).isGlobal = (n.binding b).isGlobal)
    (hpinned : ∀ b, (n.binding b).pinned = true → (n'.binding b).pinned = true)
    (hrenewed : ∀ b, (n.binding b).scope < k → (n'.binding b).renewed? = (n.binding b).renewed? ∧
      ((n'.binding b).pinned = true → (n.binding b).pinned = true ∨ (n.binding b).renewed? = none)) : Keeps k n n' :=
  ⟨hg, h.of_remarks hr, fun _ => hr.scope _, fun _ => by rw [hr.scope], fun _ => hglobal _, fun _ => hpinned _,
    fun _ => hrenewed _⟩

theorem reserve (h : n.Scoped) (name : String) : Keeps k n (n.reserve name) := by
  have hg := Grows.reserve n name
  unfold Names.reserve at hg ⊢
  split
  · exact refl h
  · next hname =>
    rw [if_neg hname] at hg
    exact of_remarks h hg ⟨rfl, rfl, rfl, fun _ => rfl, fun _ => rfl, fun _ => rfl, fun _ => rfl⟩ (fun _ => rfl)
      (fun _ => id) fun _ _ => ⟨rfl, .inl⟩

theorem modifyFunction (h : n.Scoped) (f : FuncId) {g : Signature → Signature}
    (hname : ∀ x, (g x).name = x.name) (hscope : ∀ x, (g x).scope = x.scope)
    (hx : ∀ x, (g x).isExpression = x.isExpression) (hparent : ∀ x, (g x).parent = x.parent) :
    Keeps k n (n.modifyFunction f g) :=
  of_remarks h (.modifyFunction n f hname hscope hx) (.modifyFunction f hparent hscope) (fun _ => rfl) (fun _ => id)
    fun _ _ => ⟨rfl, .inl⟩

theorem modifyBinding (h : n.Scoped) (b : BindingId) {f : Binding → Binding}
    (hname : ∀ x, (f x).name = x.name) (hscope : ∀ x, (f x).scope = x.scope)
    (hkind : ∀ x, x.kind = .function → (f x).kind = .function)
    (hglobal : ∀ x, (f x).isGlobal = x.isGlobal) (hpinned : ∀ x, x.pinned = true → (f x).pinned = true)
    (hrenewed : k ≤ (n.binding b).scope ∨ (f (n.binding b)).renewed? = (n.binding b).renewed? ∧
      (n.binding b).renewed? = none) : Keeps k n (n.modifyBinding b f) := by
  refine of_remarks h (.modifyBinding n b hname hscope hkind) (.modifyBinding b hname hscope)
    (n.binding_modifyBinding_congr Binding.isGlobal hglobal b) (fun c hc => ?_) fun c hc => ?_
  · rw [binding_modifyBinding]
    split
    · exact hpinned _ hc
    · exact hc
  · rw [binding_modifyBinding]
    split
    · next hcb =>
      obtain ⟨rfl, -⟩ := hcb
      obtain ⟨hsame, hnone⟩ := hrenewed.resolve_left (Nat.not_le_of_lt hc)
      exact ⟨hsame, fun _ => .inr hnone⟩
    · exact ⟨rfl, .inl⟩

/-- Declaring a name in a scope leaves the others as they are. -/
theorem declare (h : n.Scoped) (hs : s < n.scopes.size) (hk : k ≤ s) (name : String) (kind : BindingKind)
    (pos : Position) : Keeps k n (n.declare s name kind pos).1 := by
  have hg := Grows.declare n s name kind pos
  have hlast := h.declare hs name kind pos
  cases hb : n.lookup s name with
  | some b =>
    rw [n.declare_of_some hb]
    dsimp only
    split
    · exact modifyBinding h b (fun _ => rfl) (fun _ => rfl) (fun _ _ => rfl) (fun _ => rfl) (fun _ => id)
        (.inl ((h.lookup_eq_some.mp hb).2.1 ▸ hk))
    · exact refl h
  | none =>
    rw [n.declare_of_none hb] at hg hlast ⊢
    refine ⟨hg, hlast, fun {t} ht => ?_, fun {t} _ => ?_, fun {b} hb => ?_, fun {b} hb => ?_, fun {b} hb _ => ?_⟩
    · rw [scope_addBinding, if_neg fun hts : t = s ∧ s < n.scopes.size => Nat.not_le_of_lt ht (hts.1 ▸ hk)]
    · rw [scope_addBinding]
      split <;> rfl
    · rw [binding_addBinding, if_neg (Nat.ne_of_lt hb)]
    · rw [binding_addBinding, if_neg (Nat.ne_of_lt hb)]
      exact id
    · rw [binding_addBinding, if_neg (Nat.ne_of_lt hb)]
      exact ⟨rfl, .inl⟩

/-- Declaring a name and setting marks on its binding. -/
theorem declareMarked (h : n.Scoped) (hs : s < n.scopes.size) (hk : k ≤ s) (name : String) (kind : BindingKind)
    (pos : Position) {f : Binding → Binding} (hname : ∀ x, (f x).name = x.name) (hscope : ∀ x, (f x).scope = x.scope)
    (hkind : ∀ x, x.kind = .function → (f x).kind = .function) (hglobal : ∀ x, (f x).isGlobal = x.isGlobal)
    (hpinned : ∀ x, x.pinned = true → (f x).pinned = true) :
    Keeps k n ((n.declare s name kind pos).1.modifyBinding (n.declare s name kind pos).2 f) := by
  have hd := declare h hs hk name kind pos
  refine hd.trans (modifyBinding hd.last _ hname hscope hkind hglobal hpinned (.inl ?_)) (Nat.le_refl _)
  rw [(hd.last.lookup_eq_some.mp (lookup_declare h hs name kind pos)).2.1]
  exact hk

/-- Opening a scope leaves the others as they are. -/
theorem addScope {x : Scope} (hk : k ≤ n.scopes.size) (hlast : n'.Scoped) (hg : n.Grows n')
    (hscope : ∀ s, n'.scope s = if s = n.scopes.size then x else n.scope s)
    (hbindings : n'.bindings = n.bindings) : Keeps k n n' := by
  have hold : ∀ {s}, s < n.scopes.size → n'.scope s = n.scope s := fun hs => by
    rw [hscope, if_neg (Nat.ne_of_lt hs)]
  have hbinding : ∀ b, n'.binding b = n.binding b := fun b => by rw [binding, hbindings]; rfl
  exact ⟨hg, hlast, fun hs => hold (Nat.lt_of_lt_of_le hs hk), fun hs => by rw [hold hs],
    fun _ => by rw [hbinding], fun _ hp => by rwa [hbinding], fun _ _ => by rw [hbinding]; exact ⟨rfl, .inl⟩⟩

/-- A step leaves the scopes below its bound as they are. -/
theorem of_step (h : n.Scoped) (hk : k ≤ n.scopes.size) (hs : Step Q R k n n') : Keeps k n n' := by
  have hlast := h.step hs
  have hg := Grows.of_step hs
  cases hs with
  | reserve name => exact reserve h name
  | assign name =>
    exact of_remarks h hg ⟨rfl, rfl, rfl, fun _ => rfl, fun _ => rfl, fun _ => rfl, fun _ => rfl⟩ (fun _ => rfl)
      (fun _ => id) fun _ _ => ⟨rfl, .inl⟩
  | useArguments f | markParams f =>
    exact modifyFunction h f (fun _ => rfl) (fun _ => rfl) (fun _ => rfl) fun _ => rfl
  | pin b captured isLocal lasting =>
    exact modifyBinding h b (fun _ => rfl) (fun _ => rfl) (fun _ => id) (fun _ => rfl) (fun _ _ => rfl)
      (.inr ⟨rfl, lasting⟩)
  | @declare s name kind pos hs' hs => exact declare h hs hs' name kind pos
  | @addLexical s name kind pos inLoop hs' hs =>
    exact declareMarked h hs hs' name kind pos (fun _ => rfl) (fun _ => rfl) (fun _ => id) (fun _ => rfl) fun _ => id
  | @addParam f name pos hs' hf =>
    have hd := declareMarked h (h.scope_lt hf) hs' name .param pos
      (f := fun x => { x with onEntry := true, output := name }) (fun _ => rfl) (fun _ => rfl) (fun _ => id)
      (fun _ => rfl) fun _ => id
    exact hd.trans (modifyFunction hd.last f (fun _ => rfl) (fun _ => rfl) (fun _ => rfl) fun _ => rfl) (Nat.le_refl k)
  | @addSelf f pos hs' hf =>
    exact declareMarked h (h.scope_lt hf) hs' (n.function f).name .self pos (fun _ => rfl) (fun _ => rfl) (fun _ => id)
      (fun _ => rfl) fun _ => id
  | @openBlock s => exact addScope hk hlast hg (n.scope_openBlock s) rfl
  | @addFunction s name isExpression =>
    exact addScope hk hlast hg (fun t => n.scope_addFunction s t name isExpression) rfl

theorem of_steps (h : n.Scoped) (hk : k ≤ n.scopes.size) (hs : Steps Q R k n n') : Keeps k n n' := by
  induction hs with
  | refl => exact refl h
  | tail _ hs ih => exact ih.trans (of_step ih.last (Nat.le_trans hk ih.grows.scopes_le) hs) (Nat.le_refl _)

/-! ## What names mean -/

theorem chain_eq (h : Keeps k n n') (hs : s < n.scopes.size) : n'.chain s = n.chain s := by
  rw [chain, h.outer hs]
  rfl

/-- A scope stays directly inside the scope around it. -/
theorem inside (h : Keeps k n n') {t : ScopeId} (ht : t < n.scopes.size)
    (hs : s < n.scopes.size ∧ (n.scope s).outer = n.chain t) :
    s < n'.scopes.size ∧ (n'.scope s).outer = n'.chain t :=
  ⟨Nat.lt_of_lt_of_le hs.1 h.grows.scopes_le, by rw [h.outer hs.1, hs.2, h.chain_eq ht]⟩

theorem lookup_eq (h : Keeps k n n') (hn : n.Scoped) (hs : s < k) (name : String) :
    n'.lookup s name = n.lookup s name := by
  unfold lookup
  rw [h.scope hs]
  refine List.find?_congr fun b hb => ?_
  rw [h.grows.name (hn.mem_bindings.mp hb).1]

private theorem findSome?_congr {f g : ScopeId → Option BindingId} {l : List ScopeId}
    (h : ∀ t, t ∈ l → f t = g t) : l.findSome? f = l.findSome? g := by
  induction l with
  | nil => rfl
  | cons t l ih =>
    rw [List.findSome?_cons, List.findSome?_cons, h t List.mem_cons_self,
      ih fun u hu => h u (List.mem_cons_of_mem _ hu)]

/-- A name means in a scope that was there what it meant. -/
theorem resolve_eq (h : n.Later n') (hn : n.Scoped) (hs : s < n.scopes.size) (name : String) :
    n'.resolve s name = n.resolve s name := by
  unfold resolve
  rw [h.chain_eq hs]
  refine findSome?_congr fun t ht => ?_
  exact h.lookup_eq hn (Nat.lt_of_le_of_lt (hn.mem_chain_le hs ht) hs) name

theorem owner_eq (h : Keeps k n n') (hn : n.Scoped) (hb : b < n.bindings.size) : n'.owner b = n.owner b := by
  unfold owner
  rw [h.grows.scope hb, h.grows.owner (hn.binding_scope_lt hb)]

/-- A binding that is still tracked was tracked. -/
theorem isTracked (h : Keeps k n n') (hb : b < n.bindings.size) (ht : (n'.binding b).isTracked = true) :
    (n.binding b).isTracked = true := by
  unfold Binding.isTracked at ht ⊢
  rw [h.isGlobal hb] at ht
  cases hp : (n.binding b).pinned with
  | false => simpa using (Bool.and_eq_true_iff.mp ht).2
  | true =>
    rw [h.pinned hb hp] at ht
    cases ht

end Keeps

/-! ## Names that a function may write -/

/-- A tracked binding that a name means in a scope belongs to the function of the code there. -/
def Held (n : Names) (f : FuncId) (d : ScopeId) (name : String) : Prop :=
  ∀ b, n.resolve d name = some b → (n.binding b).isTracked = true → n.owner b = f

/-- A name that a scope gives a meaning to. -/
theorem Scoped.lt_of_resolve (h : n.Scoped) (hb : n.resolve s name = some b) : b < n.bindings.size := by
  obtain ⟨t, -, ht⟩ := List.exists_of_findSome?_eq_some hb
  exact (h.lookup_eq_some.mp ht).1

theorem resolve_of_lookup (hb : n.lookup s name = some b) : n.resolve s name = some b := by
  unfold resolve chain
  rw [List.findSome?_cons, hb]

theorem Held.later {f : FuncId} {d : ScopeId} (h : n.Held f d name) (hl : n.Later n') (hn : n.Scoped)
    (hd : d < n.scopes.size) : n'.Held f d name := by
  intro b hb ht
  rw [hl.resolve_eq hn hd] at hb
  have hlt := hn.lt_of_resolve hb
  rw [hl.owner_eq hn hlt]
  exact h b hb (hl.isTracked hlt ht)

/-- A name that the scope itself declares. -/
theorem Held.of_lookup {d : ScopeId} (hn : n.Scoped) (h : (n.lookup d name).isSome = true) :
    n.Held (n.scope d).owner d name := by
  obtain ⟨c, hc⟩ := Option.isSome_iff_exists.mp h
  intro b hb _
  rw [resolve_of_lookup hc] at hb
  cases hb
  rw [owner, (hn.lookup_eq_some.mp hc).2.1]

end ScriptOptimizer.Names
