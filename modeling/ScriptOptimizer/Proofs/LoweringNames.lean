import ScriptOptimizer.Proofs.LoweringLaw

/-!
# Names in lowering

What reading and writing a name does, by what the name means.
-/

namespace ScriptOptimizer.Lowering

open IR

variable {names : Names} {c : Site} {s s' : State} {pos : Position} {name : String}

/-- Whether a binding may be used: a lexical one of the function must have been declared. -/
def Usable (names : Names) (c : Site) (s : State) (b : BindingId) : Prop :=
  (names.binding b).isLexical = true → names.owner b = c.func → s.declared.getD b false = true

/-- A binding whose value lowering keeps. -/
def IsHeld (names : Names) (b : BindingId) : Prop :=
  (names.binding b).isGlobal = false ∧ (names.binding b).pinned = false

theorem checkDeclared_ok {b : BindingId} (h : checkDeclared c b pos names s = .ok ((), s')) :
    s' = s ∧ Usable names c s b := by
  obtain ⟨n, s1, e1, h1⟩ := bind_ok h
  obtain ⟨rfl, rfl⟩ := read_ok e1
  obtain ⟨st, s2, e2, h2⟩ := bind_ok h1
  obtain ⟨rfl, rfl⟩ := get_ok e2
  split at h2
  · exact (fail_ok h2).elim
  · next hu =>
    refine ⟨(pure_ok h2).2, fun hl ho => ?_⟩
    simpa [hl, ho] using hu

/-- What stands for a name that has no known value. -/
inductive Spelling (names : Names) (r : Option BindingId) (name : String) : Operand → Prop where
  | undefined : Spelling names r name (.literal .undefined)
  | arguments : Spelling names r name .arguments
  | global : Spelling names r name (.global name)
  | pinned {b : BindingId} (hr : r = some b) (hb : (names.binding b).pinned = true) :
      Spelling names r name (.named (names.binding b).output true)

/-- Reading a name gives an operand that is no temp, or the value of a binding. -/
theorem readName_ok {x : Operand} (h : readName c name pos names s = .ok (x, s')) :
    s' = s ∧ (Spelling names (names.resolve c.scope name) name x ∨ ∃ b, names.resolve c.scope name = some b ∧
      IsHeld names b ∧ Usable names c s b ∧ s.values.getD b none = some x) := by
  obtain ⟨r, s1, e1, h1⟩ := bind_ok h
  obtain ⟨rfl, rfl⟩ := Law.resolve_ok e1
  cases hb : names.resolve c.scope name with
  | none =>
    rw [hb] at h1
    dsimp only at h1
    split at h1
    · obtain ⟨rfl, rfl⟩ := pure_ok h1
      exact ⟨rfl, .inl .undefined⟩
    · split at h1 <;> obtain ⟨rfl, rfl⟩ := pure_ok h1
      · exact ⟨rfl, .inl .arguments⟩
      · exact ⟨rfl, .inl .global⟩
  | some b =>
    rw [hb] at h1
    obtain ⟨_, s2, e2, h2⟩ := bind_ok h1
    obtain ⟨rfl, husable⟩ := checkDeclared_ok e2
    obtain ⟨n, s3, e3, h3⟩ := bind_ok h2
    obtain ⟨rfl, rfl⟩ := read_ok e3
    dsimp only at h3
    split at h3
    · obtain ⟨rfl, rfl⟩ := pure_ok h3
      exact ⟨rfl, .inl .global⟩
    · next hg =>
      split at h3
      · next hp =>
        obtain ⟨rfl, rfl⟩ := pure_ok h3
        exact ⟨rfl, .inl (.pinned rfl hp)⟩
      · next hp =>
        obtain ⟨v, s4, e4, h4⟩ := bind_ok h3
        obtain ⟨hv, rfl⟩ := Law.value?_ok e4
        cases v with
        | none => exact (broken_ok h4).elim
        | some v =>
          obtain ⟨rfl, rfl⟩ := pure_ok h4
          exact ⟨rfl, .inr ⟨b, rfl, ⟨by simpa using hg, by simpa using hp⟩, husable, hv.symm⟩⟩

/-- A place that is written by a name. -/
inductive NamedPlace (names : Names) (r : Option BindingId) (name : String) : Place → Prop where
  | global : NamedPlace names r name (.global name)
  | named {b : BindingId} (hr : r = some b)
      (hb : (names.binding b).pinned = true ∨ (names.binding b).kind = .self) :
      NamedPlace names r name (.named (names.binding b).output)

/-- A write to a name that is kept in the output. -/
def Stores (names : Names) (c : Site) (pos : Position) (r : Option BindingId) (name : String) (v : Operand)
    (s s' : State) : Prop :=
  ∃ place assigned, NamedPlace names r name place ∧ s.program.assigned.Within assigned ∧
    store c place v pos names { s with program := { s.program with assigned } } = .ok ((), s')

/-- A write to a binding whose value lowering keeps, in a temp. -/
def Assigns (names : Names) (c : Site) (pos : Position) (b : BindingId) (v x : Operand) (s s' : State) :
    Prop :=
  ∃ t, ((∃ u, v = .temp u) ∧ x = v ∧ t = s ∨ hold c v pos names s = .ok (x, t)) ∧
    s' = { t with values := t.values.setIfInBounds b (some x) }

/-- Writing a name stores the value, or gives it to a binding. -/
theorem writeName_ok {r : Option BindingId} {v x : Operand}
    (h : writeName c r name v pos names s = .ok (x, s')) :
    (x = v ∧ Stores names c pos r name v s s') ∨
    ∃ b, r = some b ∧ IsHeld names b ∧ (names.binding b).kind ≠ .self ∧ Usable names c s b ∧
      Assigns names c pos b v x s s' := by
  have hglobal : ∀ {t}, (do
      noteAssigned name
      store c (.global name) v pos
      return v : Lower Operand) names t = .ok (x, s') → x = v ∧ Stores names c pos r name v t s' := by
    intro t h1
    obtain ⟨_, t2, e2, h2⟩ := bind_ok h1
    cases e2
    obtain ⟨_, t3, e3, h3⟩ := bind_ok h2
    obtain ⟨rfl, rfl⟩ := pure_ok h3
    exact ⟨rfl, _, _, .global, NameSet.within_insert _ name, e3⟩
  cases r with
  | none =>
    obtain ⟨n, s1, e1, h1⟩ := bind_ok h
    obtain ⟨rfl, rfl⟩ := read_ok e1
    exact .inl (hglobal h1)
  | some b =>
    obtain ⟨_, s1, e1, h1⟩ := bind_ok h
    obtain ⟨rfl, husable⟩ := checkDeclared_ok e1
    obtain ⟨n, s2, e2, h2⟩ := bind_ok h1
    obtain ⟨rfl, rfl⟩ := read_ok e2
    dsimp only at h2
    split at h2
    · exact .inl (hglobal h2)
    · next hg =>
      split at h2
      · next hp =>
        obtain ⟨_, t3, e3, h3⟩ := bind_ok h2
        obtain ⟨rfl, rfl⟩ := pure_ok h3
        exact .inl ⟨rfl, _, _, .named rfl (by simpa using hp), fun _ h => h, e3⟩
      · next hp =>
        rw [Bool.or_eq_true, not_or] at hp
        refine .inr ⟨b, rfl, ⟨by simpa using hg, by simpa using hp.1⟩, by simpa using hp.2, husable, ?_⟩
        cases v with
        | temp u =>
          cases h2
          exact ⟨_, .inl ⟨⟨u, rfl⟩, rfl, rfl⟩, rfl⟩
        | _ =>
          obtain ⟨y, t, e3, h3⟩ := bind_ok h2
          cases h3
          exact ⟨t, .inr e3, rfl⟩

/-- The state once the declaration of a binding has been passed. -/
def State.declare (s : State) (r : Option BindingId) : State :=
  match r with
  | some b => { s with declared := s.declared.setIfInBounds b true }
  | none => s

/-- The declaration of one variable. -/
def declareVar (value : Part) (c : Site) (kind : VarKind) (x : Declarator) : Lower Unit := do
  let b ← resolve c x.name
  let v ← match x.init with
    | some e => do pure (some (← value c e))
    | none => pure (if kind = .var then none else some (.literal .undefined))
  if let some b := b then setDeclared b
  if let some v := v then discard (writeName c b x.name v x.pos)

theorem varDecl_eq (value : Part) (c : Site) (d : VarDecl) :
    varDecl value c d = d.decls.forM (declareVar value c d.kind) := rfl

/-- The declaration of a variable computes its value, passes the declaration, and writes the value. -/
theorem declareVar_ok {value : Part} {kind : VarKind} {x : Declarator}
    (h : declareVar value c kind x names s = .ok ((), s')) :
    ∃ v t, (x.init = none ∧ t = s ∧ v = (if kind = .var then none else some (.literal .undefined)) ∨
        ∃ e y, x.init = some e ∧ value c e names s = .ok (y, t) ∧ v = some y) ∧
      (v = none ∧ s' = t.declare (names.resolve c.scope x.name) ∨
        ∃ y z, v = some y ∧
          writeName c (names.resolve c.scope x.name) x.name y x.pos names
            (t.declare (names.resolve c.scope x.name)) = .ok (z, s')) := by
  have hrest : ∀ v t, (do
      if let some b := names.resolve c.scope x.name then setDeclared b
      if let some v := v then
        discard (writeName c (names.resolve c.scope x.name) x.name v x.pos) : Lower Unit) names t =
          .ok ((), s') →
      (v = none ∧ s' = t.declare (names.resolve c.scope x.name) ∨
        ∃ y z, v = some y ∧
          writeName c (names.resolve c.scope x.name) x.name y x.pos names
            (t.declare (names.resolve c.scope x.name)) = .ok (z, s')) := by
    intro v t ht
    cases hb : names.resolve c.scope x.name with
    | none =>
      rw [hb] at ht
      cases v with
      | none => exact .inl ⟨rfl, (pure_ok ht).2⟩
      | some y =>
        obtain ⟨z, hz⟩ := discard_ok ht
        exact .inr ⟨y, z, rfl, hz⟩
    | some b =>
      rw [hb] at ht
      obtain ⟨_, t1, e1, h1⟩ := bind_ok ht
      cases e1
      cases v with
      | none => exact .inl ⟨rfl, (pure_ok h1).2⟩
      | some y =>
        obtain ⟨z, hz⟩ := discard_ok h1
        exact .inr ⟨y, z, rfl, hz⟩
  obtain ⟨b, s1, e1, h1⟩ := bind_ok h
  obtain ⟨rfl, rfl⟩ := Law.resolve_ok e1
  cases hi : x.init with
  | none =>
    rw [hi] at h1
    exact ⟨_, _, .inl ⟨rfl, rfl, rfl⟩, hrest _ _ h1⟩
  | some e =>
    rw [hi] at h1
    obtain ⟨y, s2, e2, h2⟩ := bind_ok h1
    exact ⟨_, _, .inr ⟨e, y, rfl, e2, rfl⟩, hrest _ _ h2⟩

/-- Binding the name of a declared function stores the function in a place that is no temp, or defines a
temp with it. -/
def BindsFunction (names : Names) (c : Site) (pos : Position) (i : FuncId) (b : BindingId)
    (s s' : State) : Prop :=
  (¬ IsHeld names b ∧ ∃ place x, place.isNamed = true ∧
      emit c (.declare place i (names.binding b).output) pos [.mutation place] names s = .ok (x, s')) ∨
    (IsHeld names b ∧ s' = { s with
      program := ((s.program.addStmt
        { action := .declare (.temp ⟨s.block, (s.program.block s.block).slots.size⟩) i
            (names.binding b).output,
          block := s.block, parent := c.parent, pos }).place s.block
            s.program.stmts.size).addSlot s.block s.program.stmts.size
      values := s.values.setIfInBounds b
        (some (.temp ⟨s.block, (s.program.block s.block).slots.size⟩)) })

/-- Declaring a function lowers it, and then binds its name. -/
theorem declareFunction_ok {function : Site → Func → Lower FuncId} {f : Func}
    (h : declareFunction function c pos f names s = .ok ((), s')) :
    ∃ i t b, function c f names s = .ok (i, t) ∧ names.lookup c.scope f.name = some b ∧
      BindsFunction names c pos i b t s' := by
  obtain ⟨i, t, e1, h1⟩ := bind_ok h
  obtain ⟨n, s2, e2, h2⟩ := bind_ok h1
  obtain ⟨rfl, rfl⟩ := read_ok e2
  cases hb : n.lookup c.scope f.name with
  | none =>
    rw [hb] at h2
    exact (broken_ok h2).elim
  | some b =>
    rw [hb] at h2
    dsimp only at h2
    split at h2
    · next hg =>
      obtain ⟨x, e3⟩ := discard_ok h2
      exact ⟨i, _, b, e1, rfl, .inl ⟨fun hh => by simp [hh.1] at hg, _, x, rfl, e3⟩⟩
    · next hg =>
      split at h2
      · next hp =>
        obtain ⟨x, e3⟩ := discard_ok h2
        exact ⟨i, _, b, e1, rfl, .inl ⟨fun hh => by simp [hh.2] at hp, _, x, rfl, e3⟩⟩
      · next hp =>
        refine ⟨i, _, b, e1, rfl, .inr ⟨⟨by simpa using hg, by simpa using hp⟩, ?_⟩⟩
        cases h2
        rfl

end ScriptOptimizer.Lowering
