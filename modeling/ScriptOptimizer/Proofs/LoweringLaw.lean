import ScriptOptimizer.Proofs.LoweringSteps
import ScriptOptimizer.Proofs.Trees

/-!
# Laws of lowering

A law is a property of the state that the basic steps of lowering keep, together with the operands that
code at the cursor may read. Whatever the basic steps keep, the lowering of every expression keeps: the
lemmas of this module follow the forms of expressions once, for all laws.
-/

namespace ScriptOptimizer.IR

/-- Whether an operand stands for neither a name nor a temp and gives the same whenever it is evaluated. -/
def Operand.isFixed : Operand → Bool
  | literal _ | receiver => true
  | _ => false

end ScriptOptimizer.IR

namespace ScriptOptimizer.Lowering

open IR

/-- A property that lowering keeps. -/
structure Law (names : Names) where
  /-- What holds where expressions are lowered. -/
  Inv : Site → State → Prop
  /-- The operands that may be read at the cursor. -/
  Ok : State → Operand → Prop
  /-- How the state may change. -/
  Step : State → State → Prop
  Tree : FuncId → ScopeId → Expr → Prop
  /-- The functions that are lowered there. -/
  Body : FuncId → ScopeId → Func → Prop
  /-- The names that may be written there. -/
  Writes : FuncId → ScopeId → String → Prop
  step_refl : ∀ s, Step s s
  step_trans : ∀ {s t u}, Step s t → Step t u → Step s u
  ok_step : ∀ {s t x}, Step s t → Ok s x → Ok t x
  ok_fixed : ∀ {s x}, x.isFixed = true → Ok s x
  tree_part : ∀ {f c e a}, Tree f c e → a ∈ e.parts → Tree f c a
  tree_function : ∀ {f c p g}, Tree f c (.function p g) → Body f c g
  tree_logical : ∀ {f c p o t v}, Tree f c (.assign p (.compound o) t v) →
    Tree f c (.logical p o t (.assign p .set t v))
  writes_assign : ∀ {f c p op t v name}, Tree f c (.assign p op t v) → identName? t = some name →
    Writes f c name
  writes_update : ∀ {f c p op i t name}, Tree f c (.update p op i t) → identName? t = some name →
    Writes f c name
  inv_depth : ∀ {c s} d, Inv c s ↔ Inv { c with depth := d } s
  inv_values : ∀ {c s}, Inv c s → names.bindings.size ≤ s.values.size
  /-- It does not matter which objects have known shapes. -/
  inv_tracking : ∀ {c s} t, Inv c s → Inv c { s with tracking := t } ∧ Step s { s with tracking := t }
  /-- Shapes hold operands that may be read. -/
  inv_shape : ∀ {c s} t (g : Option Shape → Option Shape), Inv c s →
    (∀ x y, g (s.program.shape? t) = some x → y ∈ x.operands →
      Ok s y ∨ ∃ z, s.program.shape? t = some z ∧ y ∈ z.operands) →
    Inv c { s with program := s.program.modifySlot t fun y => { y with shape := g y.shape } } ∧
    Step s { s with program := s.program.modifySlot t fun y => { y with shape := g y.shape } }
  /-- Results of conditional expressions are kept behind the values of the bindings. -/
  inv_newResult : ∀ {c s} v, Inv c s → (∀ x, v = some x → Ok s x) →
    Inv c { s with values := s.values.push v } ∧ Step s { s with values := s.values.push v }
  inv_setResult : ∀ {c s r} v, names.bindings.size ≤ r → Inv c s → (∀ x, v = some x → Ok s x) →
    Inv c { s with values := s.values.setIfInBounds r v } ∧
    Step s { s with values := s.values.setIfInBounds r v }
  temp : ∀ {c s v pos x s'}, Inv c s → (∀ cs, v ≠ .merge cs) →
    (∀ y, y ∈ v.operands → y.isFresh = false → Ok s y) →
    Lowering.temp c v pos names s = .ok (x, s') → Inv c s' ∧ Step s s' ∧ Ok s' x
  emitMember : ∀ {c s o k v pos effects x s'}, Inv c s → Ok s o → Ok s k → Ok s v →
    emit c (.setMember o k v) pos effects names s = .ok (x, s') → Inv c s' ∧ Step s s'
  readName : ∀ {c s name p pos x s'}, Tree c.func c.scope (.ident p name) → Inv c s →
    Lowering.readName c name pos names s = .ok (x, s') → s' = s ∧ Ok s x
  writeName : ∀ {c s name p v pos x s'}, Tree c.func c.scope (.ident p name) →
    Writes c.func c.scope name → Inv c s → Ok s v →
    Lowering.writeName c (names.resolve c.scope name) name v pos names s = .ok (x, s') →
      Inv c s' ∧ Step s s' ∧ Ok s' x
  branch : ∀ {c s cond thenArm elseArm r pos s'}, Inv c s → Ok s cond → names.bindings.size ≤ r →
    (∀ x, s.values.getD r none = some x → Ok s x) →
    (∀ arm, arm = thenArm ∨ elseArm = some arm → ∀ q t t',
      Inv { c with parent := some q, nest := c.nest + 1 } t →
      (∀ x, t.values.getD r none = some x → Ok t x) →
      arm { c with parent := some q, nest := c.nest + 1 } names t = .ok ((), t') →
        Inv { c with parent := some q, nest := c.nest + 1 } t' ∧ Step t t' ∧
        ∀ x, t'.values.getD r none = some x → Ok t' x) →
    Lowering.branch c cond thenArm elseArm [r] pos names s = .ok ((), s') →
      Inv c s' ∧ Step s s' ∧ ∀ x, s'.values.getD r none = some x → Ok s' x

namespace Law

variable {names : Names} (L : Law names)

variable {x o y : Operand} {e : Expr} {es : List Expr} {g : Generation}

/-- The state after a step at a site. -/
structure Keeps (c : Site) (s s' : State) : Prop where
  inv : L.Inv c s'
  step : L.Step s s'

/-- Two steps side by side at a site: behind the first one the law holds and `Q`. -/
def Does {α : Type} (A : Prop) (c : Site) (s : State) (m m' : Lower α) (Q : State → α → Prop) : Prop :=
  Alike A names s m m' fun t a => L.Keeps c s t ∧ Q t a

/-- How parts of expressions are lowered side by side. -/
def Lowers (A : Prop) (value value' : Part) : Prop :=
  ∀ c e s, L.Tree c.func c.scope e → L.Inv c s → L.Does A c s (value c e) (value' c e) L.Ok

/-- How functions are lowered side by side. -/
def Calls (A : Prop) (function function' : Site → Func → Lower FuncId) : Prop :=
  ∀ c f s, L.Body c.func c.scope f → L.Inv c s → L.Does A c s (function c f) (function' c f) fun _ _ => True

/-- Two arms of a branch side by side. -/
def Arms (A : Prop) (c : Site) (Q : State → State → Prop) (arm arm' : Site → Lower Unit) : Prop :=
  ∀ q t, L.Inv { c with parent := some q, nest := c.nest + 1 } t →
    L.Does A { c with parent := some q, nest := c.nest + 1 } t
      (arm { c with parent := some q, nest := c.nest + 1 })
      (arm' { c with parent := some q, nest := c.nest + 1 }) fun t' _ => Q t t'

/-- Branches do the same if their arms do where the law holds. -/
def Branches (A : Prop) : Prop :=
  ∀ {c s cond thenArm thenArm' elseArm elseArm' extra pos Q}, A → L.Inv c s → L.Ok s cond →
    L.Arms A c Q thenArm thenArm' → Option.Rel (L.Arms A c Q) elseArm elseArm' →
    Lowering.branch c cond thenArm' elseArm' extra pos names s =
      Lowering.branch c cond thenArm elseArm extra pos names s

variable {L} {α β : Type} {A : Prop} {c : Site} {s s' t : State} {pos : Position} {value value' : Part}

theorem Keeps.refl (h : L.Inv c s) : L.Keeps c s s := ⟨h, L.step_refl s⟩

theorem Keeps.trans (h : L.Keeps c s s') (k : L.Keeps c s' t) : L.Keeps c s t :=
  ⟨k.inv, L.step_trans h.step k.step⟩

theorem Keeps.ok (h : L.Keeps c s s') (hx : L.Ok s x) : L.Ok s' x := L.ok_step h.step hx

/-- What parts do beside others they also do on their own. -/
theorem Lowers.gives (h : L.Lowers A value value') : L.Lowers False value value :=
  fun c e s he hi => ⟨nofun, (h c e s he hi).gives⟩

namespace Does

variable {m m' : Lower α} {f f' : α → Lower β} {Q Q' : State → α → Prop} {R : State → β → Prop}

theorem bind (h : L.Does A c s m m' Q)
    (k : ∀ a t, L.Keeps c s t → Q t a → L.Does A c t (f a) (f' a) R) :
    L.Does A c s (m >>= f) (m' >>= f') R :=
  Alike.bind h fun a t _ ht => (k a t ht.1 ht.2).imp fun hu => ⟨ht.1.trans hu.1, hu.2⟩

theorem read (hm : ∀ {a t}, m names s = .ok (a, t) → t = s)
    (k : ∀ a, m names s = .ok (a, s) → L.Does A c s (f a) (f' a) R) : L.Does A c s (m >>= f) (m >>= f') R :=
  Alike.read hm k

theorem pure {a : α} (hi : L.Inv c s) (ha : Q s a) : L.Does A c s (pure a) (pure a) Q :=
  .of_gives fun e => by
    obtain ⟨rfl, rfl⟩ := pure_ok e
    exact ⟨.refl hi, ha⟩

theorem discard (h : L.Does A c s m m' Q) :
    L.Does A c s (discard m) (discard m') fun _ _ => True :=
  h.bind fun _ _ k _ => .pure k.inv trivial

theorem forM {f f' : α → Lower PUnit} {xs : List α} (hi : L.Inv c s)
    (h : ∀ x, x ∈ xs → ∀ t, L.Inv c t → L.Does A c t (f x) (f' x) fun _ _ => True) :
    L.Does A c s (xs.forM f) (xs.forM f') fun _ _ => True :=
  (Alike.forM (P := L.Keeps c s) (.refl hi) fun x hx t ht => Alike.imp (h x hx t ht.inv) fun k => ht.trans k.1).imp
    fun k => ⟨k, trivial⟩

end Does

/-! ## Reading the state -/

theorem isVolatile_ok {v : Bool} (h : isVolatile x names s = .ok (v, s')) : s' = s := by
  cases x <;> cases h <;> rfl

theorem resolve_ok {name : String} {b : Option BindingId}
    (h : Lowering.resolve c name names s = .ok (b, s')) : b = names.resolve c.scope name ∧ s' = s := by
  cases h
  exact ⟨rfl, rfl⟩

theorem value?_ok {b : BindingId} {v : Option Operand} (h : value? b names s = .ok (v, s')) :
    v = s.values.getD b none ∧ s' = s := by
  cases h
  exact ⟨rfl, rfl⟩

theorem tracked?_ok {same : Bool} {r : Option (TempId × Shape)} (h : tracked? c o same names s = .ok (r, s')) :
    s' = s ∧ ∀ u x, r = some (u, x) → s.program.shape? u = some x := by
  obtain ⟨s1, s2, e1, h1⟩ := bind_ok h
  obtain ⟨rfl, rfl⟩ := get_ok e1
  have hnone (h : (pure none : Lower (Option (TempId × Shape))) names s2 = .ok (r, s')) :
      s' = s2 ∧ ∀ u x, r = some (u, x) → s2.program.shape? u = some x := by
    obtain ⟨rfl, rfl⟩ := pure_ok h
    exact ⟨rfl, nofun⟩
  cases o with
  | temp t =>
    dsimp only at h1
    cases hn : s2.tracking[t]? with
    | none =>
      rw [hn] at h1
      exact hnone h1
    | some nest =>
      rw [hn] at h1
      dsimp only at h1
      split at h1
      · exact hnone h1
      · obtain ⟨rfl, rfl⟩ := pure_ok h1
        refine ⟨rfl, fun u x hx => ?_⟩
        obtain ⟨y, hy, he⟩ := Option.map_eq_some_iff.mp hx
        cases he
        exact hy
  | _ => exact hnone h1

theorem generation?_ok {g : Option Nat} (h : generation? c o names s = .ok (g, s')) : s' = s := by
  obtain ⟨r, s1, e1, h1⟩ := bind_ok h
  rw [(pure_ok h1).2, (tracked?_ok e1).1]

theorem isSafe_ok {v : Bool} (h : isSafe c e names s = .ok (v, s')) : s' = s := by
  cases e with
  | ident p name =>
    obtain ⟨b, s1, e1, h1⟩ := bind_ok h
    obtain ⟨-, rfl⟩ := resolve_ok e1
    cases b with
    | none => exact (pure_ok h1).2
    | some b =>
      obtain ⟨n, s2, e2, h2⟩ := bind_ok h1
      obtain ⟨-, rfl⟩ := read_ok e2
      obtain ⟨w, s3, e3, h3⟩ := bind_ok h2
      rw [(pure_ok h3).2, (value?_ok e3).2]
  | _ => exact (pure_ok h).2

theorem refuseSpread_ok {what : Unsupported} (h : refuseSpread what es names s = .ok ((), s')) : s' = s := by
  refine forM_ok (P := fun t => t = s) rfl ?_ h
  intro e _ t t' ht he
  rw [← ht]
  cases e with
  | spread => exact (refuse_ok he).elim
  | _ => exact (pure_ok he).2

/-! ## Basic steps -/

theorem escape_does (xs : List Operand) (hi : L.Inv c s) :
    L.Does A c s (escape xs) (escape xs) fun _ _ => True :=
  .of_gives fun e => by
    cases e
    exact ⟨⟨(L.inv_tracking _ hi).1, (L.inv_tracking _ hi).2⟩, trivial⟩

theorem addGeneration_does {u : TempId} (hi : L.Inv c s)
    (hg : ∀ y, y ∈ g.operands → L.Ok s y ∨ ∃ z, s.program.shape? u = some z ∧ y ∈ z.operands) :
    L.Does A c s (addGeneration u g) (addGeneration u g) fun _ _ => True :=
  .of_gives fun e => by
    cases e
    have hs := L.inv_shape u
      (fun y => y.map fun x : Shape => { x with generations := x.generations ++ [g] }) hi fun x y hx hy => by
        obtain ⟨z, hz, rfl⟩ := Option.map_eq_some_iff.mp hx
        simp only [Shape.operands, List.flatMap_append, List.flatMap_singleton, List.mem_append] at hy
        rcases hy with hy | hy
        · exact .inr ⟨z, hz, hy⟩
        · exact hg y hy
    exact ⟨⟨hs.1, hs.2⟩, trivial⟩

theorem track_does {isArray : Bool} (hi : L.Inv c s) (hg : ∀ y, y ∈ g.operands → L.Ok s y) :
    L.Does A c s (track c x isArray g) (track c x isArray g) fun _ _ => True :=
  .of_gives fun e => by
    cases x with
    | temp u =>
      cases e
      have hs := L.inv_shape u (fun _ => some ⟨isArray, [g]⟩) hi fun x y hx hy => by
        cases hx
        simp only [Shape.operands, List.flatMap_singleton] at hy
        exact .inl (hg y hy)
      have ht := L.inv_tracking (s.tracking.insert u c.nest) hs.1
      exact ⟨⟨ht.1, L.step_trans hs.2 ht.2⟩, trivial⟩
    | _ =>
      cases e
      exact ⟨.refl hi, trivial⟩

/-- What the last known shape of an object holds. -/
private theorem mem_operands_of_last {shape : Shape} (hy : y ∈ (shape.generations.getLastD {}).operands) :
    y ∈ shape.operands := by
  refine List.mem_flatMap.mpr ⟨_, ?_, hy⟩
  rw [List.getLastD_eq_getLast?] at hy ⊢
  cases hl : shape.generations.getLast? with
  | none =>
    rw [hl] at hy
    cases hy
  | some g => exact List.mem_of_getLast? hl

theorem mem_setEntry {key k : Text} {v : Operand} {list : List (Text × Operand)}
    (h : (k, y) ∈ setEntry key v list) : y = v ∨ (k, y) ∈ list := by
  induction list with
  | nil =>
    cases List.mem_singleton.mp h
    exact .inl rfl
  | cons e rest ih =>
    obtain ⟨k', v'⟩ := e
    unfold setEntry at h
    split at h
    · rcases List.mem_cons.mp h with h | h
      · cases h
        exact .inl rfl
      · exact .inr (List.mem_cons_of_mem _ h)
    · rcases List.mem_cons.mp h with h | h
      · cases h
        exact .inr List.mem_cons_self
      · exact (ih h).imp_right (List.mem_cons_of_mem _)

/-- The shape behind a write holds what the one before held and what is written. -/
private theorem mem_operands_of_written? {shape : Shape} {k v : Operand} (h : written? shape k v = some g)
    (hy : y ∈ g.operands) : y = v ∨ y ∈ shape.operands := by
  obtain ⟨key, -, h⟩ := Option.bind_eq_some_iff.mp h
  have hlast {z : Operand} (hz : z ∈ (shape.generations.getLastD {}).operands) : z ∈ shape.operands :=
    mem_operands_of_last hz
  generalize shape.generations.getLastD {} = last at h hlast
  dsimp only at h
  split at h
  · cases h
  · split at h
    · split at h
      · next i _ =>
        split at h
        · cases h
          rcases List.mem_append.mp hy with hy | hy
          · exact .inr (hlast (List.mem_append_left _ hy))
          · dsimp only [setElem] at hy
            split at hy
            · rcases List.mem_append.mp hy with hy | hy
              · exact .inr (hlast (List.mem_append_right _ hy))
              · exact .inl (List.mem_singleton.mp hy)
            · rcases List.mem_or_eq_of_mem_set hy with hy | hy
              · exact .inr (hlast (List.mem_append_right _ hy))
              · exact .inl hy
        · cases h
      · cases h
    · cases h
      rcases List.mem_append.mp hy with hy | hy
      · obtain ⟨e, he, rfl⟩ := List.mem_map.mp hy
        rcases mem_setEntry he with he | he
        · exact .inl he
        · exact .inr (hlast (List.mem_append_left _ (List.mem_map.mpr ⟨e, he, rfl⟩)))
      · exact .inr (hlast (List.mem_append_right _ hy))

theorem noteWrite_does {k v : Operand} (hi : L.Inv c s) (hv : L.Ok s v) :
    L.Does A c s (noteWrite c o k v) (noteWrite c o k v) fun _ _ => True := by
  refine .read (fun e => (tracked?_ok e).1) fun r e => ?_
  cases r with
  | none => exact escape_does _ hi
  | some r =>
    obtain ⟨u, shape⟩ := r
    have hshape := (tracked?_ok e).2 u shape rfl
    dsimp only
    cases hg : written? shape k v with
    | none => exact escape_does _ hi
    | some g =>
      refine addGeneration_does hi fun y hy => ?_
      rcases mem_operands_of_written? hg hy with rfl | hy
      · exact .inl hv
      · exact .inr ⟨shape, hshape, hy⟩

theorem noteMethod_does {k : Operand} {args : List Operand} (hi : L.Inv c s) (hargs : ∀ y, y ∈ args → L.Ok s y) :
    L.Does A c s (noteMethod c o k args) (noteMethod c o k args) fun _ _ => True := by
  refine .read (fun e => (tracked?_ok e).1) fun r e => ?_
  cases r with
  | none => exact escape_does _ hi
  | some r =>
    obtain ⟨u, shape⟩ := r
    have hshape := (tracked?_ok e).2 u shape rfl
    dsimp only
    split
    · refine addGeneration_does hi fun y hy => ?_
      have hlast {z : Operand} (hz : z ∈ (shape.generations.getLastD {}).operands) :
          ∃ z', s.program.shape? u = some z' ∧ z ∈ z'.operands := ⟨shape, hshape, mem_operands_of_last hz⟩
      rcases List.mem_append.mp hy with hy | hy
      · exact .inr (hlast (List.mem_append_left _ hy))
      · rcases List.mem_append.mp hy with hy | hy
        · exact .inr (hlast (List.mem_append_right _ hy))
        · exact .inl (hargs y hy)
    · exact escape_does _ hi

theorem temp_does {v : Value} (hi : L.Inv c s) (hm : ∀ cs, v ≠ .merge cs)
    (hv : ∀ y, y ∈ v.operands → L.Ok s y) : L.Does A c s (Lowering.temp c v pos) (Lowering.temp c v pos) L.Ok :=
  .of_gives fun e => by
    obtain ⟨h1, h2, h3⟩ := L.temp hi hm (fun y hy _ => hv y hy) e
    exact ⟨⟨h1, h2⟩, h3⟩

/-- Something new is held in a temp at once. -/
theorem holdFresh_does (hi : L.Inv c s) (hx : x.isFresh = true) :
    L.Does A c s (hold c x pos) (hold c x pos) L.Ok :=
  .of_gives fun e => by
    obtain ⟨h1, h2, h3⟩ := L.temp hi (by simp) (fun y hy hf => by
      rw [List.mem_singleton.mp hy, hx] at hf
      cases hf) e
    exact ⟨⟨h1, h2⟩, h3⟩

theorem hold_does (hi : L.Inv c s) (hx : L.Ok s x) : L.Does A c s (hold c x pos) (hold c x pos) L.Ok :=
  temp_does hi (by simp) (by simpa [Value.operands] using hx)

/-- What follows does not depend on whether an operand was held. -/
theorem heldIf_does {k k' : Operand → Lower β} {R : State → β → Prop} {b : Bool} (hi : L.Inv c s)
    (hx : L.Ok s x) (hk : ∀ y t, L.Inv c t → L.Ok t y → L.Does A c t (k y) (k' y) R) :
    L.Does A c s (if b then hold c x pos >>= k else k x) (if b then hold c x pos >>= k' else k' x) R := by
  split
  · exact (hold_does hi hx).bind fun y t kt hy => hk y t kt.inv hy
  · exact hk x s hi hx

theorem readName_does {name : String} {p : Position} (hn : L.Tree c.func c.scope (.ident p name)) (hi : L.Inv c s) :
    L.Does A c s (Lowering.readName c name pos) (Lowering.readName c name pos) L.Ok :=
  .of_gives fun e => by
    obtain ⟨rfl, hx⟩ := L.readName hn hi e
    exact ⟨.refl hi, hx⟩

theorem writeName_does {name : String} {p : Position} {v : Operand}
    (hn : L.Tree c.func c.scope (.ident p name)) (hw : L.Writes c.func c.scope name) (hi : L.Inv c s)
    (hv : L.Ok s v) :
    L.Does A c s (Lowering.writeName c (names.resolve c.scope name) name v pos)
      (Lowering.writeName c (names.resolve c.scope name) name v pos) L.Ok :=
  .of_gives fun e => by
    obtain ⟨h1, h2, h3⟩ := L.writeName hn hw hi hv e
    exact ⟨⟨h1, h2⟩, h3⟩

theorem setMember_does {k v : Operand} (hi : L.Inv c s) (ho : L.Ok s o) (hk : L.Ok s k) (hv : L.Ok s v) :
    L.Does A c s (Lowering.setMember c o k v pos) (Lowering.setMember c o k v pos) fun _ _ => True := by
  refine (escape_does _ hi).bind fun _ s1 k1 _ => (noteWrite_does k1.inv (k1.ok hv)).bind fun _ s2 k2 _ => ?_
  have k12 := k1.trans k2
  refine .of_gives fun e => ?_
  obtain ⟨x, e⟩ := discard_ok e
  obtain ⟨hi3, hs3⟩ := L.emitMember k2.inv (k12.ok ho) (k12.ok hk) (k12.ok hv) e
  exact ⟨⟨hi3, hs3⟩, trivial⟩

/-! ## Forms of expressions -/

theorem operands_does (hv : L.Lowers A value value') (he : ∀ e, e ∈ es → L.Tree c.func c.scope e)
    (hi : L.Inv c s) :
    L.Does A c s (operands value c es) (operands value' c es) fun t xs => ∀ x, x ∈ xs → L.Ok t x := by
  induction es generalizing s with
  | nil => exact .pure hi nofun
  | cons e es ih =>
    refine (hv c e s (he e List.mem_cons_self) hi).bind fun x s1 k1 hx => .read isVolatile_ok fun v _ =>
      heldIf_does k1.inv hx fun y t ht hy => ?_
    refine (ih (fun e he' => he e (List.mem_cons_of_mem _ he')) ht).bind fun ys u k hys => .pure k.inv fun z hz => ?_
    rcases List.mem_cons.mp hz with rfl | hz
    · exact k.ok hy
    · exact hys z hz

theorem memberParts_does (hv : L.Lowers A value value') {o : Expr} {k : Key} {extra : List Expr}
    (ho : L.Tree c.func c.scope o) (hk : ∀ x, k = .computed x → L.Tree c.func c.scope x)
    (he : ∀ e, e ∈ extra → L.Tree c.func c.scope e) (hi : L.Inv c s) :
    L.Does A c s (memberParts value c o k extra) (memberParts value' c o k extra) fun t r =>
      L.Ok t r.1 ∧ L.Ok t r.2.1 ∧ ∀ x, x ∈ r.2.2 → L.Ok t x := by
  have hdefault : ∀ {s}, L.Ok s (default : Operand) := L.ok_fixed rfl
  cases k with
  | name name =>
    refine (operands_does hv (List.forall_mem_cons.mpr ⟨ho, he⟩) hi).bind fun xs s1 k1 hxs => ?_
    cases xs with
    | nil => exact .pure k1.inv ⟨hdefault, hdefault, nofun⟩
    | cons x xs =>
      exact .pure k1.inv ⟨hxs x List.mem_cons_self, L.ok_fixed rfl, fun y hy => hxs y (List.mem_cons_of_mem _ hy)⟩
  | computed key =>
    refine (operands_does hv (List.forall_mem_cons.mpr ⟨ho, List.forall_mem_cons.mpr ⟨hk _ rfl, he⟩⟩) hi).bind
      fun xs s1 k1 hxs => ?_
    match xs with
    | [] | [_] => exact .pure k1.inv ⟨hdefault, hdefault, nofun⟩
    | x :: y :: rest =>
      exact (escape_does _ k1.inv).bind fun _ s2 k2 _ => .pure k2.inv
        ⟨k2.ok (hxs x (by simp)), k2.ok (hxs y (by simp)), fun z hz => k2.ok (hxs z (by simp [hz]))⟩

theorem readMember_does {k : Operand} (hi : L.Inv c s) (ho : L.Ok s o) (hk : L.Ok s k) :
    L.Does A c s (readMember c o k pos) (readMember c o k pos) L.Ok := by
  refine .read generation?_ok fun g _ => temp_does hi (by simp) fun y hy => ?_
  simp only [Value.operands, List.mem_cons, List.not_mem_nil, or_false] at hy
  rcases hy with rfl | rfl
  · exact ho
  · exact hk

theorem refuseTarget_ok {r : α × State} (h : refuseTarget e names s = .ok r) : False := by
  unfold refuseTarget at h
  split at h <;> cases h

/-- The object and the key of a member expression. -/
theorem tree_memberOf? {o : Expr} {k : Key} (he : L.Tree c.func c.scope e) (hk : memberOf? e = some (o, k)) :
    L.Tree c.func c.scope o ∧ ∀ x, k = .computed x → L.Tree c.func c.scope x := by
  cases e with
  | member =>
    cases hk
    exact ⟨L.tree_part he (by simp [Expr.parts]), nofun⟩
  | index =>
    cases hk
    exact ⟨L.tree_part he (by simp [Expr.parts]), fun _ hx => by
      cases hx
      exact L.tree_part he (by simp [Expr.parts])⟩
  | _ => cases hk

/-- The old value of a target is settled in a temp when need be. -/
theorem settle_does {runsCode : Bool} (hi : L.Inv c s) (hx : L.Ok s x) :
    L.Does A c s (do if runsCode && (← isVolatile x) then hold c x pos else pure x)
      (do if runsCode && (← isVolatile x) then hold c x pos else pure x) L.Ok := by
  refine .read isVolatile_ok fun v _ => ?_
  split
  · exact hold_does hi hx
  · exact .pure hi hx

theorem modifyTarget_does (hv : L.Lowers A value value') {runsCode : Bool}
    {compute compute' : Operand → Lower (Operand × Operand)} (he : L.Tree c.func c.scope e)
    (hw : ∀ name, identName? e = some name → L.Writes c.func c.scope name)
    (hc : ∀ old t, L.Inv c t → L.Ok t old →
      L.Does A c t (compute old) (compute' old) fun t r => L.Ok t r.1 ∧ L.Ok t r.2)
    (hi : L.Inv c s) :
    L.Does A c s (modifyTarget value c e runsCode pos compute) (modifyTarget value' c e runsCode pos compute')
      L.Ok := by
  unfold modifyTarget
  split
  · refine .read (fun e => (resolve_ok e).2) fun b e => ?_
    obtain ⟨rfl, -⟩ := resolve_ok e
    refine (readName_does he hi).bind fun old s1 k1 hold => (settle_does k1.inv hold).bind fun old' s2 k2 hold' =>
      (hc old' s2 k2.inv hold').bind fun r s3 k3 hr => ?_
    exact (writeName_does he (hw _ rfl) k3.inv hr.1).bind fun _ s4 k4 _ => .pure k4.inv (k4.ok hr.2)
  · cases hm : memberOf? e with
    | none => exact .of_fails refuseTarget_ok
    | some ok =>
      obtain ⟨o, k⟩ := ok
      obtain ⟨ho, hk⟩ := tree_memberOf? he hm
      refine (memberParts_does hv ho hk (List.forall_mem_nil _) hi).bind fun p s1 k1 hp => ?_
      obtain ⟨o', k', rest⟩ := p
      refine (settle_does k1.inv hp.1).bind fun o'' s2 k2 ho'' =>
        (readMember_does k2.inv ho'' (k2.ok hp.2.1)).bind fun old s3 k3 hold =>
        (hc old s3 k3.inv hold).bind fun r s4 k4 hr => ?_
      have k34 := k3.trans k4
      exact (setMember_does k4.inv (k34.ok ho'') (k34.ok (k2.ok hp.2.1)) hr.1).bind fun _ s5 k5 _ =>
        .pure k5.inv (k5.ok hr.2)

theorem update_does (hv : L.Lowers A value value') {op : UpdateOp} {inFront : Bool}
    (he : L.Tree c.func c.scope (.update pos op inFront e)) (hi : L.Inv c s) :
    L.Does A c s (update value c pos op inFront e) (update value' c pos op inFront e) L.Ok := by
  refine modifyTarget_does hv (L.tree_part he (by simp [Expr.parts])) (fun _ => L.writes_update he)
    (fun old t ht hold => ?_) hi
  refine (temp_does ht (by simp) (by simpa [Value.operands] using hold)).bind
    fun number t1 k1 hnumber => ?_
  refine (temp_does k1.inv (by simp)
    (by simpa [Value.operands] using ⟨hnumber, L.ok_fixed rfl⟩)).bind fun next t2 k2 hnext => .pure k2.inv ⟨hnext, ?_⟩
  dsimp only
  split
  · exact hnext
  · exact k2.ok hnumber

theorem operate_does (hv : L.Lowers A value value') {op : BinaryOp} {source : Expr}
    (he : L.Tree c.func c.scope e) (hw : ∀ name, identName? e = some name → L.Writes c.func c.scope name)
    (hs : L.Tree c.func c.scope source) (hi : L.Inv c s) :
    L.Does A c s (operate value c pos op e source) (operate value' c pos op e source) L.Ok := by
  refine modifyTarget_does hv he hw (fun old t ht hold => ?_) hi
  refine (hv c source t hs ht).bind fun v t1 k1 hv => ?_
  exact (temp_does k1.inv (by simp)
    (by simpa [Value.operands] using ⟨k1.ok hold, hv⟩)).bind fun next t2 k2 hnext => .pure k2.inv ⟨hnext, hnext⟩

theorem assign_does (hv : L.Lowers A value value') {source : Expr} (he : L.Tree c.func c.scope e)
    (hw : ∀ name, identName? e = some name → L.Writes c.func c.scope name) (hs : L.Tree c.func c.scope source)
    (hi : L.Inv c s) : L.Does A c s (assign value c pos e source) (assign value' c pos e source) L.Ok := by
  unfold assign
  split
  · refine .read (fun e => (resolve_ok e).2) fun b e => ?_
    obtain ⟨rfl, -⟩ := resolve_ok e
    exact (hv c source s hs hi).bind fun v s1 k1 hx => writeName_does he (hw _ rfl) k1.inv hx
  · cases hm : memberOf? e with
    | none => exact .of_fails refuseTarget_ok
    | some ok =>
      obtain ⟨o, k⟩ := ok
      obtain ⟨ho, hk⟩ := tree_memberOf? he hm
      refine (memberParts_does hv ho hk (by simpa using hs) hi).bind fun p s1 k1 hp => ?_
      obtain ⟨o', k', rest⟩ := p
      have hx : L.Ok s1 (rest.headD default) := by
        cases rest with
        | nil => exact L.ok_fixed rfl
        | cons y ys => exact hp.2.2 y List.mem_cons_self
      exact (setMember_does k1.inv hp.1 hp.2.1 hx).bind fun _ s2 k2 _ => .pure k2.inv (k2.ok hx)

theorem assignment_does (hv : L.Lowers A value value') {op : AssignOp} {source : Expr}
    (he : L.Tree c.func c.scope (.assign pos op e source)) (hi : L.Inv c s) :
    L.Does A c s (assignment value c pos op e source) (assignment value' c pos op e source) L.Ok := by
  have ht := L.tree_part he (show e ∈ _ by simp [Expr.parts])
  have hs := L.tree_part he (show source ∈ _ by simp [Expr.parts])
  have hw : ∀ name, identName? e = some name → L.Writes c.func c.scope name := fun _ => L.writes_assign he
  unfold assignment
  split
  · exact assign_does hv ht hw hs hi
  · exact operate_does hv ht hw hs hi
  · split
    · split
      · exact .of_fails refuse_ok
      · exact hv _ _ _ (L.tree_logical he) hi
    · exact operate_does hv ht hw hs hi

theorem unary_does (hv : L.Lowers A value value') {op : UnaryOp}
    (hunary : L.Tree c.func c.scope (.unary pos op e)) (hi : L.Inv c s) :
    L.Does A c s (unary value c pos op e) (unary value' c pos op e) L.Ok := by
  have he := L.tree_part hunary (show e ∈ _ by simp [Expr.parts])
  unfold unary
  split
  · cases hm : memberOf? e with
    | some ok =>
      obtain ⟨o, k⟩ := ok
      obtain ⟨ho, hk⟩ := tree_memberOf? he hm
      refine (memberParts_does hv ho hk (List.forall_mem_nil _) hi).bind fun p s1 k1 hp =>
        (escape_does _ k1.inv).bind fun _ s2 k2 _ => ?_
      exact temp_does k2.inv (by simp)
        (by simpa [Value.operands] using ⟨k2.ok hp.1, k2.ok hp.2.1⟩)
    | none =>
      dsimp only
      split
      · refine .read (fun e => (resolve_ok e).2) fun b _ => ?_
        split
        · exact .pure hi (L.ok_fixed rfl)
        · exact holdFresh_does hi rfl
      · exact (hv c e s he hi).bind fun y s1 k1 _ => .pure k1.inv (L.ok_fixed rfl)
  · exact (hv c e s he hi).bind fun y s1 k1 hy => temp_does k1.inv (by simp)
      (by simpa [Value.operands] using hy)

theorem binary_does (hv : L.Lowers A value value') {op : BinaryOp} {l r : Expr}
    (he : L.Tree c.func c.scope (.binary pos op l r)) (hi : L.Inv c s) :
    L.Does A c s (binary value c pos op l r) (binary value' c pos op l r) L.Ok := by
  have hl := L.tree_part he (show l ∈ _ by simp [Expr.parts])
  have hr := L.tree_part he (show r ∈ _ by simp [Expr.parts])
  refine (operands_does hv (by simpa using ⟨hl, hr⟩) hi).bind fun xs s1 k1 hxs => ?_
  rcases xs with _ | ⟨y, _ | ⟨z, _ | _⟩⟩
  case cons.cons.nil =>
    exact temp_does k1.inv (by simp) (by simpa [Value.operands] using hxs)
  all_goals exact .pure k1.inv (L.ok_fixed rfl)

/-- The result of a conditional expression may be read. -/
def HasResult (L : Law names) (r : BindingId) (s : State) : Prop := ∀ x, s.values.getD r none = some x → L.Ok s x

/-- The arm of a conditional expression gives the result its value. -/
theorem arm_does (hv : L.Lowers A value value') {r : BindingId} (he : L.Tree c.func c.scope e)
    (hr : names.bindings.size ≤ r) :
    L.Arms A c (fun t t' => L.HasResult r t → L.HasResult r t') (fun c => do setValue r (some (← value c e)))
      (fun c => do setValue r (some (← value' c e))) := by
  refine fun q t ht => (hv { c with parent := some q, nest := c.nest + 1 } e t he ht).bind fun x u k hx =>
    .of_gives fun e => ?_
  cases e
  obtain ⟨hi, hs⟩ := L.inv_setResult (some x) hr k.inv fun y hy => Option.some.inj hy ▸ hx
  refine ⟨⟨hi, hs⟩, fun _ y hy => ?_⟩
  have hxy : y = x := by
    simp only [Array.getD_eq_getD_getElem?, Array.getElem?_setIfInBounds, if_true] at hy
    split at hy
    · simpa using hy.symm
    · cases hy
  rw [hxy]
  exact L.ok_step hs hx

/-- A branch whose arms give a result its value gives what the result is behind it. -/
theorem branch_does (hL : L.Branches A) {cond : Operand} {thenArm thenArm' : Site → Lower Unit}
    {elseArm elseArm' : Option (Site → Lower Unit)} {r : BindingId} (hi : L.Inv c s) (hcond : L.Ok s cond)
    (hr : names.bindings.size ≤ r) (hresult : L.HasResult r s)
    (hthen : L.Arms A c (fun t t' => L.HasResult r t → L.HasResult r t') thenArm thenArm')
    (helse : Option.Rel (L.Arms A c fun t t' => L.HasResult r t → L.HasResult r t') elseArm elseArm') :
    L.Does A c s
      (do
        Lowering.branch c cond thenArm elseArm [r] pos
        return (← value? r).getD default)
      (do
        Lowering.branch c cond thenArm' elseArm' [r] pos
        return (← value? r).getD default) L.Ok := by
  have hbranch : L.Does A c s (Lowering.branch c cond thenArm elseArm [r] pos)
      (Lowering.branch c cond thenArm' elseArm' [r] pos) fun t _ => L.HasResult r t := by
    refine ⟨fun hA => hL hA hi hcond hthen helse, fun e => ?_⟩
    obtain ⟨hi', hs', hr'⟩ := L.branch hi hcond hr hresult (fun arm harm q t t' ht hf run => by
      obtain ⟨k, hk⟩ : L.Keeps { c with parent := some q, nest := c.nest + 1 } t t' ∧
          (L.HasResult r t → L.HasResult r t') := by
        rcases harm with rfl | rfl
        · exact (hthen q t ht).gives run
        · cases helse with
          | some harm => exact (harm q t ht).gives run
      exact ⟨k.inv, k.step, hk hf⟩) e
    exact ⟨⟨hi', hs'⟩, hr'⟩
  refine hbranch.bind fun _ s1 k1 hr1 => .read (fun e => (value?_ok e).2) fun v e => .pure k1.inv ?_
  obtain ⟨rfl, -⟩ := value?_ok e
  cases hv : s1.values.getD r none with
  | none => exact L.ok_fixed rfl
  | some y => exact hr1 y hv

/-- A result that has a value at first. -/
theorem newResult_does {v : Option Operand} (hi : L.Inv c s) (hv : ∀ x, v = some x → L.Ok s x) :
    L.Does A c s (newResult v) (newResult v) fun t r => names.bindings.size ≤ r ∧ L.HasResult r t :=
  .of_gives fun e => by
    cases e
    obtain ⟨hi1, hs1⟩ := L.inv_newResult v hi hv
    refine ⟨⟨hi1, hs1⟩, L.inv_values hi, fun x hx => L.ok_step hs1 (hv x ?_)⟩
    simpa only [Array.getD_eq_getD_getElem?, Array.getElem?_push, if_true, Option.getD_some] using hx

theorem logical_does (hL : L.Branches A) (hv : L.Lowers A value value') {op : BinaryOp} {l r : Expr}
    (he : L.Tree c.func c.scope (.logical pos op l r)) (hi : L.Inv c s) :
    L.Does A c s (logical value c pos op l r) (logical value' c pos op l r) L.Ok := by
  have hl := L.tree_part he (show l ∈ _ by simp [Expr.parts])
  have hr := L.tree_part he (show r ∈ _ by simp [Expr.parts])
  refine (hv c l s hl hi).bind fun y s1 k1 hy => .read isSafe_ok fun safe _ => ?_
  split
  · exact (hv c r s1 hr k1.inv).bind fun z s2 k2 hz => temp_does k2.inv (by simp)
      (by simpa [Value.operands] using ⟨k2.ok hy, hz⟩)
  refine .read isVolatile_ok fun v _ => heldIf_does k1.inv hy fun y s2 hi2 hy => ?_
  refine (newResult_does hi2 fun x hx => Option.some.inj hx ▸ hy).bind fun result s3 k3 h3 => ?_
  obtain ⟨hsize, hresult⟩ := h3
  have harm := arm_does hv hr hsize
  dsimp only
  split
  · exact branch_does hL k3.inv (k3.ok hy) hsize hresult (fun q t ht => .pure ht id) (.some harm)
  · have htest : L.Does A c s3 (Lowering.temp c (.binary .equal y (.literal .null)) pos)
        (Lowering.temp c (.binary .equal y (.literal .null)) pos) fun t x => L.HasResult result t ∧ L.Ok t x := by
      refine .of_gives fun e => ?_
      obtain ⟨k4, hcond⟩ := (temp_does (A := False) k3.inv (by simp)
        (by simpa [Value.operands] using ⟨k3.ok hy, L.ok_fixed rfl⟩)).gives e
      rw [temp_apply] at e
      cases e
      exact ⟨k4, fun x hx => k4.ok (hresult x hx), hcond⟩
    exact htest.bind fun cond s4 k4 h4 => branch_does hL k4.inv h4.2 hsize h4.1 harm .none
  · exact branch_does hL k3.inv (k3.ok hy) hsize hresult harm .none

theorem conditional_does (hL : L.Branches A) (hv : L.Lowers A value value') {a b : Expr}
    (he : L.Tree c.func c.scope e) (ha : L.Tree c.func c.scope a) (hb : L.Tree c.func c.scope b)
    (hi : L.Inv c s) : L.Does A c s (conditional value c pos e a b) (conditional value' c pos e a b) L.Ok := by
  refine (hv c e s he hi).bind fun cond s1 k1 hcond =>
    (newResult_does k1.inv fun _ (hx : none = _) => by cases hx).bind fun r s2 k2 h2 => ?_
  exact branch_does hL k2.inv (k2.ok hcond) h2.1 h2.2 (arm_does hv ha h2.1) (.some (arm_does hv hb h2.1))

theorem call_does (hv : L.Lowers A value value') {isNew : Bool} {f : Expr} {args : List Expr}
    (he : ∀ e, e ∈ f :: args → L.Tree c.func c.scope e) (hi : L.Inv c s) :
    L.Does A c s (call value c pos isNew f args) (call value' c pos isNew f args) L.Ok := by
  refine .read refuseSpread_ok fun _ _ => ?_
  cases hm : if isNew then none else memberOf? f with
  | some ok =>
    obtain ⟨o, k⟩ := ok
    obtain ⟨ho, hk⟩ : L.Tree c.func c.scope o ∧ ∀ x, k = .computed x → L.Tree c.func c.scope x := by
      split at hm
      · cases hm
      · exact tree_memberOf? (he f List.mem_cons_self) hm
    refine (memberParts_does hv ho hk (fun e hm => he e (List.mem_cons_of_mem _ hm)) hi).bind fun p s1 k1 hp => ?_
    obtain ⟨o', k', xs⟩ := p
    obtain ⟨ho', hk', hxs⟩ := hp
    refine (noteMethod_does k1.inv hxs).bind fun _ s2 k2 _ => (escape_does _ k2.inv).bind fun _ s3 k3 _ => ?_
    have k23 := k2.trans k3
    refine temp_does k3.inv (by simp) fun y hy => ?_
    simp only [Value.operands, Callee.operands, List.mem_append, List.mem_cons, List.not_mem_nil, or_false] at hy
    rcases hy with (rfl | rfl) | hy
    · exact k23.ok ho'
    · exact k23.ok hk'
    · exact k23.ok (hxs y hy)
  | none =>
    refine (operands_does hv he hi).bind fun xs s1 k1 hxs => ?_
    cases xs with
    | nil => exact .pure k1.inv (L.ok_fixed rfl)
    | cons y ys =>
      refine (escape_does _ k1.inv).bind fun _ s2 k2 _ => (escape_does _ k2.inv).bind fun _ s3 k3 _ => ?_
      refine temp_does k3.inv (by cases isNew <;> simp) fun z hz => ?_
      refine (k2.trans k3).ok (hxs z ?_)
      cases isNew <;> simpa [Value.operands, Callee.operands] using hz

/-- A fresh object whose shape is known. -/
theorem construct_does {v : Value} {isArray : Bool} {xs : List Operand} (hi : L.Inv c s)
    (hm : ∀ cs, v ≠ .merge cs) (hxs : ∀ x, x ∈ xs → L.Ok s x)
    (hv : ∀ y, y ∈ v.operands → y ∈ xs) (hg : ∀ y, y ∈ g.operands → y ∈ xs) : L.Does A c s
      (do
        escape xs
        let x ← Lowering.temp c v pos
        track c x isArray g
        return x)
      (do
        escape xs
        let x ← Lowering.temp c v pos
        track c x isArray g
        return x) L.Ok := by
  refine (escape_does _ hi).bind fun _ s1 k1 _ =>
    (temp_does k1.inv hm fun y hy => k1.ok (hxs y (hv y hy))).bind fun x s2 k2 hx => ?_
  exact (track_does k2.inv fun y hy => (k1.trans k2).ok (hxs y (hg y hy))).bind fun _ s3 k3 _ =>
    .pure k3.inv (k3.ok hx)

theorem array_does (hv : L.Lowers A value value') (he : ∀ e, e ∈ es → L.Tree c.func c.scope e) (hi : L.Inv c s) :
    L.Does A c s (array value c pos es) (array value' c pos es) L.Ok :=
  .read refuseSpread_ok fun _ _ => (operands_does hv he hi).bind fun _ _ k hxs =>
    construct_does k.inv (by simp) hxs (fun _ hy => by simpa [Value.operands] using hy)
      fun _ hy => by simpa [Generation.operands] using hy

/-- The operands of the members of an object are values of its expressions. -/
private theorem mem_of_members {ps : List Property} {xs : List Operand} {m : Member} (hm : m ∈ members ps xs)
    (hy : y ∈ m.operands) : y ∈ xs := by
  fun_induction members ps xs with
  | case1 _ _ _ ps k v vs ih =>
    rcases List.mem_cons.mp hm with rfl | hm
    · simp only [Member.operands, List.mem_cons, List.not_mem_nil, or_false] at hy
      rcases hy with rfl | rfl <;> simp
    · simp [ih hm]
  | case2 _ _ _ ps v vs ih =>
    rcases List.mem_cons.mp hm with rfl | hm
    · simp only [Member.operands, List.mem_cons, List.not_mem_nil, or_false] at hy
      simp [hy]
    · simp [ih hm]
  | case3 => cases hm

/-- The shape of a fresh object holds the operands of its members. -/
private theorem mem_operands_initialShape {ms : List Member} (hy : y ∈ (initialShape ms).operands) :
    ∃ m, m ∈ ms ∧ y ∈ m.operands := by
  refine List.foldlRecOn (motive := fun g : Generation => y ∈ g.operands → ∃ m, m ∈ ms ∧ y ∈ m.operands) ms _
    (fun h => by cases h) (fun g hg m hm hy => ?_) hy
  cases m with
  | named key v =>
    dsimp only at hy
    split at hy
    · exact hg hy
    · rcases List.mem_append.mp hy with hy | hy
      · obtain ⟨e, he, rfl⟩ := List.mem_map.mp hy
        rcases mem_setEntry he with he | he
        · exact ⟨_, hm, by rw [he]; exact List.mem_singleton_self _⟩
        · exact hg (List.mem_append_left _ (List.mem_map.mpr ⟨e, he, rfl⟩))
      · exact hg (List.mem_append_right _ hy)
  | computed => exact hg hy

theorem refuseMembers_ok {ps : List Property}
    (h : (ps.forM fun
      | .spread pos _ => refuse .objectSpread pos
      | _ => pure () : Lower Unit) names s = .ok ((), s')) : s' = s := by
  refine forM_ok (P := fun t => t = s) rfl ?_ h
  intro q _ t t' ht hq
  rw [← ht]
  cases q with
  | spread => exact (refuse_ok hq).elim
  | _ => exact (pure_ok hq).2

theorem object_does (hv : L.Lowers A value value') {ps : List Property}
    (he : ∀ e, e ∈ ps.flatMap memberExprs → L.Tree c.func c.scope e) (hi : L.Inv c s) :
    L.Does A c s (object value c pos ps) (object value' c pos ps) L.Ok :=
  .read refuseMembers_ok fun _ _ => (operands_does hv he hi).bind fun _ _ k hxs =>
    construct_does k.inv (by simp) hxs
      (fun _ hy => by
        obtain ⟨m, hm, hy⟩ := List.mem_flatMap.mp hy
        exact mem_of_members hm hy)
      fun _ hy => by
        obtain ⟨m, hm, hy⟩ := mem_operands_initialShape hy
        exact mem_of_members hm hy

theorem sequence_does (hv : L.Lowers A value value') (he : ∀ e, e ∈ es → L.Tree c.func c.scope e)
    (hi : L.Inv c s) : L.Does A c s (sequence value c es) (sequence value' c es) L.Ok := by
  induction es using sequence.induct generalizing s with
  | case1 => exact .pure hi (L.ok_fixed rfl)
  | case2 e => exact hv c e s (he e List.mem_cons_self) hi
  | case3 e es hes ih =>
    rw [sequence, sequence]
    · exact (hv c e s (he e List.mem_cons_self) hi).bind fun _ s1 k1 _ =>
        ih (fun e' he' => he e' (List.mem_cons_of_mem _ he')) k1.inv
    all_goals exact hes

/-! ## All expressions -/

theorem deeper_ok {d : Site} (h : deeper c pos names s = .ok (d, s')) :
    d = { c with depth := c.depth + 1 } ∧ s' = s := by
  unfold deeper at h
  dsimp only at h
  split at h
  · obtain ⟨_, _, e1, -⟩ := bind_ok h
    exact (fail_ok e1).elim
  · exact pure_ok h

theorem Does.of_depth {d : Nat} {m m' : Lower α} {Q : State → α → Prop}
    (h : L.Does A { c with depth := d } s m m' Q) : L.Does A c s m m' Q :=
  Alike.imp h fun ht => ⟨⟨(L.inv_depth d).mpr ht.1.inv, ht.1.step⟩, ht.2⟩

/-- Expressions do what their parts and the functions in them do. -/
theorem exprWith_does (hL : L.Branches A) (hv : L.Lowers A value value')
    {function function' : Site → Func → Lower FuncId}
    (hf : L.Calls A function function') : L.Lowers A (exprWith value function) (exprWith value' function') := by
  intro c e s he hi
  refine .read (fun e => (deeper_ok e).2) fun d e0 => ?_
  obtain ⟨rfl, -⟩ := deeper_ok e0
  have hi : L.Inv { c with depth := c.depth + 1 } s := (L.inv_depth (c.depth + 1)).mp hi
  have he : L.Tree { c with depth := c.depth + 1 }.func { c with depth := c.depth + 1 }.scope e := he
  refine Does.of_depth (d := c.depth + 1) ?_
  generalize { c with depth := c.depth + 1 } = d at hi he ⊢
  have part : ∀ a, a ∈ e.parts → L.Tree d.func d.scope a := fun _ ha => L.tree_part he ha
  cases e with
  | hole => exact .of_fails broken_ok
  | literal _ v => exact .pure hi (L.ok_fixed rfl)
  | ident pos name => exact readName_does he hi
  | receiver => exact .pure hi (L.ok_fixed rfl)
  | raw pos text => exact holdFresh_does hi rfl
  | function pos f =>
    exact (hf _ _ _ (L.tree_function he) hi).bind fun i s1 k1 _ => holdFresh_does k1.inv rfl
  | array pos es => exact array_does hv part hi
  | object pos ps => exact object_does hv part hi
  | spread => exact .of_fails refuse_ok
  | unary pos op a => exact unary_does hv he hi
  | update pos op i a => exact update_does hv he hi
  | binary pos op l r => exact binary_does hv he hi
  | logical pos op l r => exact logical_does hL hv he hi
  | assign pos op a b => exact assignment_does hv he hi
  | conditional pos a b z =>
    exact conditional_does hL hv (part a (by simp [Expr.parts])) (part b (by simp [Expr.parts]))
      (part z (by simp [Expr.parts])) hi
  | call pos a es => exact call_does hv part hi
  | construct pos a es => exact call_does hv part hi
  | member pos o name =>
    exact (memberParts_does hv (part o (by simp [Expr.parts])) (fun _ (hx : Key.name name = _) => by cases hx)
      (List.forall_mem_nil _) hi).bind fun _ _ k hp =>
      readMember_does k.inv hp.1 hp.2.1
  | index pos o k =>
    refine (memberParts_does hv (part o (by simp [Expr.parts])) (fun _ hx => ?_) (List.forall_mem_nil _) hi).bind
      fun _ _ k hp => readMember_does k.inv hp.1 hp.2.1
    cases hx
    exact part k (by simp [Expr.parts])
  | sequence pos es => exact sequence_does hv part hi

end Law

end ScriptOptimizer.Lowering
