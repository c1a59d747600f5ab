import ScriptOptimizer.Proofs.LoweringBranch

/-!
# Lowering of loops

The lowering of a loop is taken apart into the runs of its test and its body, and keeps the structure of
the program when these do.
-/

namespace ScriptOptimizer.Lowering

open IR

variable {strict : Prop} {names : Names} {c : Site} {s s' t t' : State} {pos : Position} {frame : Frame}
  {carried : List (BindingId × TempId)} {behind isDeclared : Bool} {value : Part}
  {stmt : Site → Stmt → Lower Unit} {test : Expr} {body : Stmt} {update : Option Expr} {name : String}
  {object : Operand} {P : Expr → Prop}

/-! ## Carried bindings -/

/-- The bindings that a loop carries. -/
def carriedBindings (names : Names) (c : Site) (assigned : List String) : List BindingId :=
  (visibleBindings names c).filter fun b =>
    assigned.contains (names.binding b).name &&
      names.resolve c.scope (names.binding b).name == some b

theorem carried_ok {assigned : List String} {bs : List BindingId}
    (h : Lowering.carried c assigned names s = .ok (bs, s')) :
    bs = carriedBindings names c assigned ∧ s' = s := by
  cases h
  exact ⟨rfl, rfl⟩

/-- A binding that a loop carries gets a merging temp, which starts with its value. -/
theorem enterBinding_ok {b : BindingId} {r : BindingId × TempId}
    (h : enterBinding c pos b names s = .ok (r, s')) :
    r = (b, ⟨s.block, (s.program.block s.block).slots.size⟩) ∧ ∃ t,
      t = { s with
        program := ((s.program.addStmt
          { action := .define r.2 (.merge []) .undecided, block := s.block, parent := c.parent,
            pos }).place s.block s.program.stmts.size).addSlot s.block s.program.stmts.size } ∧
      ((s.values.getD b none = none ∧
          s' = { t with values := t.values.setIfInBounds b (some (.temp r.2)) }) ∨
        ∃ v x t1 t2, s.values.getD b none = some v ∧
          copyInto r.2 (some v) s.block c.parent pos names t = .ok (x, t1) ∧
          append s.block x names t1 = .ok ((), t2) ∧
          s' = { t2 with values := t2.values.setIfInBounds b (some (.temp r.2)) }) := by
  obtain ⟨st, s1, e1, h1⟩ := bind_ok h
  obtain ⟨rfl, rfl⟩ := get_ok e1
  obtain ⟨⟨m, d⟩, s2, e2, h2⟩ := bind_ok h1
  rw [newMerge_apply] at e2
  cases e2
  obtain ⟨_, s3, e3, h3⟩ := bind_ok h2
  rw [append_apply, ← Program.addSlot_place] at e3
  cases e3
  obtain ⟨v, s4, e4, h4⟩ := bind_ok h3
  obtain ⟨rfl, rfl⟩ := Law.value?_ok e4
  cases hv : s1.values.getD b none with
  | none =>
    rw [hv] at h4
    cases h4
    exact ⟨rfl, _, rfl, .inl ⟨rfl, rfl⟩⟩
  | some v =>
    rw [hv] at h4
    obtain ⟨x, t1, e5, h5⟩ := bind_ok h4
    obtain ⟨_, t2, e6, h6⟩ := bind_ok h5
    cases h6
    exact ⟨rfl, _, rfl, .inr ⟨v, x, t1, t2, rfl, e5, e6, rfl⟩⟩

/-- Entering a loop keeps the structure of the program. -/
theorem Ready.enterBinding (h : Ready strict names c s) {b : BindingId} {r : BindingId × TempId}
    (hs : enterBinding c pos b names s = .ok (r, s')) : Ready strict names c s' ∧ Moves s s' := by
  obtain ⟨rfl, t, ht, hrest⟩ := enterBinding_ok hs
  obtain ⟨h1, m1⟩ := h.define rfl rfl rfl rfl rfl rfl rfl ht
  have hb : t.block = s.block := by rw [ht]
  rcases hrest with ⟨-, rfl⟩ | ⟨v, x, t1, t2, -, hc, ha, rfl⟩
  · exact ⟨h1.of_eq rfl rfl (by simp) rfl, m1.of_eq rfl rfl⟩
  · rw [← hb] at hc ha
    obtain ⟨h2, m2⟩ := h1.copy hc ha
    exact ⟨h2.of_eq rfl rfl (by simp) rfl, (m1.trans m2).of_eq rfl rfl⟩

/-- Giving the carried bindings their values changes nothing else. -/
theorem reload_apply (carried : List (BindingId × TempId)) :
    reload carried names s = .ok ((), { s with
      values := restored s.values (carried.map fun e => (e.1, some (.temp e.2))) }) := by
  unfold reload
  induction carried generalizing s with
  | nil => rfl
  | cons e rest ih => exact ih

theorem reload_ok (h : reload carried names s = .ok ((), s')) : s' = { s with
      values := restored s.values (carried.map fun e => (e.1, some (.temp e.2))) } := by
  rw [reload_apply] at h
  cases h
  rfl

/-! ## The end of a round -/

theorem Ready.pendingCopies (h : Ready strict names c s) {merges : List TempId}
    {copies : List (TempId × Operand)} (hs : pendingCopies c pos merges carried names s = .ok (copies, s')) :
    Ready strict names c s' ∧ Moves s s' := by
  induction carried generalizing s s' copies with
  | nil =>
    obtain ⟨rfl, rfl⟩ := pure_ok hs
    exact ⟨h, .refl _⟩
  | cons e rest ih =>
    obtain ⟨b, m⟩ := e
    obtain ⟨v, s1, e1, h1⟩ := bind_ok hs
    obtain ⟨-, rfl⟩ := Law.value?_ok e1
    cases v with
    | none => exact ih h h1
    | some v =>
      dsimp only at h1
      split at h1
      · exact ih h h1
      · split at h1
        · obtain ⟨y, s2, e2, h2⟩ := bind_ok h1
          obtain ⟨k2, m2⟩ := h.temp (by simp) e2
          obtain ⟨ys, s3, e3, h3⟩ := bind_ok h2
          obtain ⟨k3, m3⟩ := ih k2 e3
          obtain ⟨rfl, rfl⟩ := pure_ok h3
          exact ⟨k3, m2.trans m3⟩
        · obtain ⟨y, s2, e2, h2⟩ := bind_ok h1
          obtain ⟨rfl, rfl⟩ := pure_ok e2
          obtain ⟨ys, s3, e3, h3⟩ := bind_ok h2
          obtain ⟨k3, m3⟩ := ih h e3
          obtain ⟨rfl, rfl⟩ := pure_ok h3
          exact ⟨k3, m3⟩

/-- The end of a round keeps the structure of the program. -/
theorem Ready.sync (h : Ready strict names c s) (hs : sync c frame pos names s = .ok ((), s')) :
    Ready strict names c s' ∧ Moves s s' := by
  obtain ⟨copies, s1, e1, h1⟩ := bind_ok hs
  obtain ⟨k1, m1⟩ := h.pendingCopies e1
  obtain ⟨st, s2, e2, h2⟩ := bind_ok h1
  obtain ⟨rfl, rfl⟩ := get_ok e2
  obtain ⟨_, s3, e3, h3⟩ := bind_ok h2
  have k3 := forM_ok (P := fun t => (Ready strict names c t ∧ Moves s t) ∧ t.block = s2.block)
    ⟨⟨k1, m1⟩, rfl⟩ (fun x _ t t' ht hrun => by
      obtain ⟨y, t1, f1, g1⟩ := bind_ok hrun
      obtain ⟨⟨ht, hm⟩, hb⟩ := ht
      rw [← hb] at f1 g1
      obtain ⟨k, m⟩ := ht.copy f1 g1
      refine ⟨⟨k, hm.trans m⟩, ?_⟩
      obtain ⟨-, d, u, l, cs, tracking, -, -, rfl⟩ := copyInto_ok f1
      cases g1
      exact hb) e3
  have hs' := reload_ok h3
  exact ⟨k3.1.1.of_eq (by rw [hs']) (by rw [hs']) (by rw [hs']; simp) (by rw [hs']),
    k3.1.2.of_eq (by rw [hs']) (by rw [hs'])⟩

/-! ## Taking loops apart -/

/-- What runs in the test of a loop. -/
def testStep (value : Part) (c : Site) (frame : Frame) (test : Expr) (pos : Position) :
    Lower Operand := do
  let cond ← value c test
  sync c frame pos
  return cond

/-- What runs in the body of a loop. -/
def bodyStep (value : Part) (stmt : Site → Stmt → Lower Unit) (c : Site) (frame : Frame) (body : Stmt)
    (pos : Position) : Lower Unit := do
  stmt c body
  unless (← get).terminated do
    runUpdate value c frame
    sync c frame pos

/-- A loop with a condition. -/
def testedAction (behind : Bool) (b : BlockId) (cond : Operand) : Action :=
  .loop { head := .tested behind b cond, body := b + 1 }

theorem mem_blocks_testedAction {b d : BlockId} {cond : Operand} :
    d ∈ (testedAction behind b cond).blocks ↔ d = b ∨ d = b + 1 := by
  cases behind <;> simp [testedAction, Action.blocks, Loop.blocks, or_comm]

/-- Test and body of a loop are different blocks. -/
theorem nodup_blocks_testedAction {b : BlockId} {cond : Operand} : (testedAction behind b cond).blocks.Nodup := by
  cases behind <;> simp [testedAction, Action.blocks, Loop.blocks]

/-- The program in which a loop has just been emitted at the cursor, with `k` blocks of its own. -/
def State.emitLoop (s : State) (c : Site) (action : Action) (effects : List Effect) (pos : Position)
    (k : Nat) : State :=
  { s with
    program := ((s.program.addStmt
      { action, block := s.block, parent := c.parent, pos, effects }).place s.block
        s.program.stmts.size).addBlocks c.func (some s.program.stmts.size) k }

/-- A run of the body of a loop. -/
def RunsBody (names : Names) (step : Lower Unit) (b : BlockId) (s s' : State) : Prop :=
  ∃ t, step names { s with block := b, terminated := false } = .ok ((), t) ∧
    s' = { t with block := s.block, terminated := s.terminated }

/-- A run of the test of loop `n`, which then is known by its condition. -/
def RunsTest (names : Names) (step : Lower Operand) (n : StmtId) (behind : Bool) (b : BlockId)
    (s s' : State) : Prop :=
  ∃ cond t, step names { s with block := b, terminated := false } = .ok (cond, t) ∧
    s' = { t with
      block := s.block
      terminated := s.terminated
      program := t.program.modifyStmt n fun x => { x with action := testedAction behind b cond } }

/-- The state in which the carried bindings have the values that their merging temps hold. -/
def State.reloaded (s : State) (frame : Frame) : State :=
  { s with values := restored s.values (frame.carried.map fun e => (e.1, some (.temp e.2))) }

/-- Behind a loop code goes on in a block that follows the one of the loop. -/
theorem exitLoop_ok (h : exitLoop c frame names s = .ok ((), s')) :
    s' = { (s.reloaded frame).continueFrom c (s.program.stmt frame.loop).block with tracking := {} } := by
  obtain ⟨_, t1, e1, h1⟩ := bind_ok h
  have ht1 := reload_ok e1
  subst ht1
  obtain ⟨q, t2, e2, h2⟩ := bind_ok h1
  obtain ⟨rfl, rfl⟩ := program_ok e2
  obtain ⟨_, t3, e3, h3⟩ := bind_ok h2
  rw [continueFrom_apply] at e3
  cases e3
  cases h3
  rfl

/-- The state in which a loop with a condition starts. -/
abbrev State.startTested (s : State) (c : Site) (behind : Bool) (pos : Position) : State :=
  s.emitLoop c (testedAction behind s.program.blocks.size (.literal .undefined)) [] pos 2

/-- The state in which a loop over keys or values starts. -/
abbrev State.startIterated (s : State) (c : Site) (of : Bool) (each : Place) (object : Operand)
    (pos : Position) : State :=
  s.emitLoop c (.loop { head := .iterated of each object, body := s.program.blocks.size })
    (if each.isNamed then [.mutation each] else []) pos 1

/-- Enters the bindings that a loop with a condition reassigns. -/
abbrev enterTested (names : Names) (c : Site) (test : Expr) (update : Option Expr) (body : Stmt) (pos : Position) :
    Lower (List (BindingId × TempId)) :=
  (carriedBindings names c (exprAssigns test ++ (update.map exprAssigns).getD [] ++ stmtAssigns body)).mapM
    (enterBinding c pos)

/-- What happens in a loop with a condition: it carries the bindings that it reassigns, and runs test and body
in their order. -/
def RunsTested (names : Names) (value : Part) (stmt : Site → Stmt → Lower Unit) (c : Site) (behind : Bool)
    (test : Expr) (body : Stmt) (update : Option Expr) (pos : Position) (s s' : State) : Prop :=
  ∃ carried s1 s2 s3 frame,
    enterTested names c test update body pos names { s with tracking := {} } = .ok (carried, s1) ∧
    frame = { loop := s1.program.stmts.size, carried, update, head := c.scope } ∧
    ((behind = false ∧
        RunsTest names (testStep value (c.inLoop frame) frame test pos) frame.loop behind
          s1.program.blocks.size
          (s1.startTested c behind pos)
          s2 ∧
        RunsBody names (bodyStep value stmt (c.inLoop frame) frame body pos)
          (s1.program.blocks.size + 1) s2 s3) ∨
      (behind = true ∧
        RunsBody names (bodyStep value stmt (c.inLoop frame) frame body pos)
          (s1.program.blocks.size + 1)
          (s1.startTested c behind pos)
          s2 ∧
        RunsTest names (testStep value (c.inLoop frame) frame test pos) frame.loop behind
          s1.program.blocks.size (s2.reloaded frame) s3)) ∧
    exitLoop c frame names s3 = .ok ((), s')

/-- A loop with a condition does the same as another if their tests and bodies do where they start. -/
theorem testedLoop_alike {A : Prop} (value' : Part)
    (stmt' : Site → Stmt → Lower Unit)
    (h : A → ∀ carried s1 frame,
      enterTested names c test update body pos names { s with tracking := {} } = .ok (carried, s1) →
      frame = { loop := s1.program.stmts.size, carried, update, head := c.scope } →
      ∀ b t0, b = s1.program.blocks.size →
        t0 = s1.emitLoop c (testedAction behind b (.literal .undefined)) [] pos 2 →
      (testStep value' (c.inLoop frame) frame test pos names { t0 with block := b, terminated := false } =
          testStep value (c.inLoop frame) frame test pos names
            { t0 with block := b, terminated := false } ∧
        ∀ t, RunsTest names (testStep value (c.inLoop frame) frame test pos) frame.loop behind b t0 t →
          bodyStep value' stmt' (c.inLoop frame) frame body pos names
              { t with block := b + 1, terminated := false } =
            bodyStep value stmt (c.inLoop frame) frame body pos names
              { t with block := b + 1, terminated := false }) ∧
      bodyStep value' stmt' (c.inLoop frame) frame body pos names
          { t0 with block := b + 1, terminated := false } =
        bodyStep value stmt (c.inLoop frame) frame body pos names
          { t0 with block := b + 1, terminated := false } ∧
      ∀ t, RunsBody names (bodyStep value stmt (c.inLoop frame) frame body pos) (b + 1) t0 t →
        testStep value' (c.inLoop frame) frame test pos names
            { t.reloaded frame with block := b, terminated := false } =
          testStep value (c.inLoop frame) frame test pos names
            { t.reloaded frame with block := b, terminated := false }) :
    Alike A names s (testedLoop value stmt c behind test body update pos)
      (testedLoop value' stmt' c behind test body update pos)
      fun s' _ => RunsTested names value stmt c behind test body update pos s s' := by
  refine .step fun bs t1 e1 => ?_
  obtain ⟨rfl, rfl⟩ := carried_ok e1
  refine .step fun _ t2 e2 => ?_
  cases e2
  refine .step fun carried s1 e3 => ?_
  refine .step fun p t4 e4 => ?_
  obtain ⟨rfl, rfl⟩ := program_ok e4
  refine .step fun n t5 e5 => ?_
  rw [emit_apply] at e5
  cases e5
  refine .step fun b1 t6 e6 => ?_
  rw [newBlock_apply] at e6
  cases e6
  refine .step fun b2 t7 e7 => ?_
  rw [newBlock_apply] at e7
  cases e7
  have hsame := fun hA => h hA carried t4 _ e3 rfl _ _ rfl rfl
  cases behind with
  | false =>
    simp only [Bool.false_eq_true, if_false]
    refine .next (fun hA => bind_eq_bind (within_same (hsame hA).1.1) fun _ _ _ => rfl) fun _ s2 e8 => ?_
    obtain ⟨r, t, e9, h9⟩ := bind_ok e8
    obtain ⟨cond, u, hu, rfl, rfl⟩ := within_ok e9
    cases h9
    refine .next (fun hA => within_same ((hsame hA).1.2 _ ⟨cond, u, hu, rfl⟩)) fun _ s3 e10 => ?_
    obtain ⟨_, v, hv, -, rfl⟩ := within_ok e10
    exact .of_gives fun e => ⟨carried, t4, _, _, _, e3, rfl, .inl ⟨rfl, ⟨cond, u, hu, rfl⟩, ⟨v, hv, rfl⟩⟩, e⟩
  | true =>
    simp only [if_true]
    refine .next (fun hA => within_same (hsame hA).2.1) fun _ s2 e8 => ?_
    obtain ⟨_, v, hv, -, rfl⟩ := within_ok e8
    refine .step fun _ s3 e9 => ?_
    have hs3 := reload_ok e9
    subst hs3
    refine .next (fun hA => bind_eq_bind (within_same ((hsame hA).2.2 _ ⟨v, hv, rfl⟩)) fun _ _ _ => rfl)
      fun _ s4 e10 => ?_
    obtain ⟨r, t, e11, h11⟩ := bind_ok e10
    obtain ⟨cond, u, hu, rfl, rfl⟩ := within_ok e11
    cases h11
    exact .of_gives fun e => ⟨carried, t4, _, _, _, e3, rfl, .inr ⟨rfl, ⟨v, hv, rfl⟩, ⟨cond, u, hu, rfl⟩⟩, e⟩

theorem testedLoop_ok (h : testedLoop value stmt c behind test body update pos names s = .ok ((), s')) :
    RunsTested names value stmt c behind test body update pos s s' :=
  (testedLoop_alike (A := False) value stmt nofun).gives h

/-- The place that a loop over keys or values stores them in. -/
def placeOfEach (names : Names) (name : String) (b : Option BindingId)
    (carried : List (BindingId × TempId)) : Place :=
  match b with
  | none => .global name
  | some b =>
    if (names.binding b).isGlobal then .global name
    else if (names.binding b).pinned then .named (names.binding b).output
    else
      match carried.find? (·.1 == b) with
      | some (_, merge) => .merge merge
      | none => .temp default

theorem eachPlace_ok {b : Option BindingId} {p : Place} (h : eachPlace name b carried names s = .ok (p, s')) :
    p = placeOfEach names name b carried ∧ s' = s := by
  unfold eachPlace at h
  obtain ⟨n, s1, e1, h1⟩ := bind_ok h
  obtain ⟨rfl, rfl⟩ := read_ok e1
  unfold placeOfEach
  cases b with
  | none => exact pure_ok h1
  | some b =>
    dsimp only at h1 ⊢
    split
    · next hg =>
      rw [if_pos hg] at h1
      exact pure_ok h1
    · next hg =>
      rw [if_neg hg] at h1
      split
      · next hp =>
        rw [if_pos hp] at h1
        exact pure_ok h1
      · next hp =>
        rw [if_neg hp] at h1
        cases hf : carried.find? (·.1 == b) with
        | none =>
          rw [hf] at h1
          exact pure_ok h1
        | some e =>
          rw [hf] at h1
          exact pure_ok h1

/-- The bindings that a loop over keys or values carries. -/
def iteratedBindings (names : Names) (c : Site) (name : String) (body : Stmt) : List BindingId :=
  carriedBindings names c
    ((match names.resolve c.scope name with
      | some b => if (names.binding b).isTracked then [name] else []
      | none => []) ++ stmtAssigns body)

/-- The bindings that are declared once a loop over keys or values has declared its target. -/
def declaredBy (s : State) (b : Option BindingId) (isDeclared : Bool) : Array Bool :=
  match b with
  | some b => if isDeclared then s.declared.setIfInBounds b true else s.declared
  | none => s.declared

private theorem declareEach_alike {A : Prop} {b : Option BindingId} {m m' : Lower Unit}
    {Q : State → Unit → Prop} (h : Alike A names { s with declared := declaredBy s b isDeclared } m m' Q) :
    Alike A names s
      (do
        if let some b := b then
          if isDeclared then setDeclared b
        m)
      (do
        if let some b := b then
          if isDeclared then setDeclared b
        m') Q := by
  cases b with
  | none => exact h
  | some b =>
    cases isDeclared with
    | false => exact h
    | true =>
      refine .step fun _ t e => ?_
      cases e
      exact h

private theorem noteEach_alike {A : Prop} {each : Place} {m m' : Lower Unit} {Q : State → Unit → Prop}
    (h : ∀ assigned, s.program.assigned.Within assigned →
      Alike A names { s with program := { s.program with assigned } } m m' Q) :
    Alike A names s
      (do
        if let .global _ := each then noteAssigned name
        m)
      (do
        if let .global _ := each then noteAssigned name
        m') Q := by
  cases each with
  | global =>
    refine .step fun _ t e => ?_
    cases e
    exact h _ (NameSet.within_insert _ name)
  | temp | merge | named => exact h s.program.assigned fun _ hn => hn

/-- What happens in a loop over keys or values: it carries its target and the bindings that its body
reassigns. -/
def RunsIterated (names : Names) (value : Part) (stmt : Site → Stmt → Lower Unit) (c : Site) (of isDeclared : Bool)
    (name : String) (object : Operand) (body : Stmt) (pos : Position) (s s' : State) : Prop :=
  ∃ declared assigned carried s1 s2 frame each,
    declared = declaredBy s (names.resolve c.scope name) isDeclared ∧
    (iteratedBindings names c name body).mapM (enterBinding c pos) names
      { s with declared, tracking := {} } = .ok (carried, s1) ∧
    frame = { loop := s1.program.stmts.size, carried, update := none, head := c.scope } ∧
    each = placeOfEach names name (names.resolve c.scope name) carried ∧ s1.program.assigned.Within assigned ∧
    RunsBody names (bodyStep value stmt (c.inLoop frame) frame body pos) s1.program.blocks.size
      ({ s1 with program := { s1.program with assigned } }.startIterated c of each object pos) s2 ∧
    exitLoop c frame names s2 = .ok ((), s')

/-- A loop over keys or values does the same as another if their bodies do where they start. -/
theorem iteratedLoop_alike {A : Prop} (value value' : Part)
    (stmt' : Site → Stmt → Lower Unit) {of : Bool}
    (h : A → ∀ declared assigned carried s1 frame each,
      (iteratedBindings names c name body).mapM (enterBinding c pos) names
        { s with declared, tracking := {} } = .ok (carried, s1) →
      frame = { loop := s1.program.stmts.size, carried, update := none, head := c.scope } →
      each = placeOfEach names name (names.resolve c.scope name) carried → s1.program.assigned.Within assigned →
      ∀ t0, t0 = { s1 with program := { s1.program with assigned } }.startIterated c of each object pos →
      bodyStep value' stmt' (c.inLoop frame) frame body pos names
          { t0 with block := s1.program.blocks.size, terminated := false } =
        bodyStep value stmt (c.inLoop frame) frame body pos names
          { t0 with block := s1.program.blocks.size, terminated := false }) :
    Alike A names s (iteratedLoop stmt c of isDeclared name object body pos)
      (iteratedLoop stmt' c of isDeclared name object body pos)
      fun s' _ => RunsIterated names value stmt c of isDeclared name object body pos s s' := by
  refine .step fun n t1 e1 => ?_
  obtain ⟨rfl, rfl⟩ := read_ok e1
  refine .step fun b t2 e2 => ?_
  obtain ⟨rfl, rfl⟩ := Law.resolve_ok e2
  refine declareEach_alike ?_
  refine .step fun bs t3 e3 => ?_
  obtain ⟨rfl, rfl⟩ := carried_ok e3
  refine .step fun _ t4 e4 => ?_
  cases e4
  refine .step fun carried s1 e5 => .step fun each t6 e6 => ?_
  obtain ⟨heach, rfl⟩ := eachPlace_ok e6
  refine noteEach_alike fun assigned hassigned => ?_
  refine .step fun p t7 e7 => ?_
  obtain ⟨rfl, rfl⟩ := program_ok e7
  refine .step fun m t8 e8 => ?_
  rw [emit_apply] at e8
  cases e8
  refine .step fun b t9 e9 => ?_
  rw [newBlock_apply] at e9
  cases e9
  refine .next (fun hA => within_same (h hA _ assigned carried t6 _ each e5 rfl heach hassigned _ rfl)) fun _ s2 e10 => ?_
  obtain ⟨_, v, hv, -, rfl⟩ := within_ok e10
  exact .of_gives fun e => ⟨_, assigned, carried, t6, _, _, each, rfl, e5, rfl, heach, hassigned, ⟨v, hv, rfl⟩, e⟩

theorem iteratedLoop_ok (value : Part) {of : Bool}
    (h : iteratedLoop stmt c of isDeclared name object body pos names s = .ok ((), s')) :
    RunsIterated names value stmt c of isDeclared name object body pos s s' :=
  (iteratedLoop_alike (A := False) value value stmt nofun).gives h

/-! ## The structure behind a loop -/

/-- Parts of expressions keep the structure of the program. -/
def KeepsStructure (strict : Prop) (names : Names) (value : Part) (P : Expr → Prop) : Prop :=
  ∀ c e s x s', P e → Ready strict names c s → value c e names s = .ok (x, s') →
    Ready strict names c s' ∧ Moves s s'

/-- The body of a loop, with what follows it in every round. -/
theorem Ready.bodyStep
    (h : Ready strict names c s) (hvalue : KeepsStructure strict names value P)
    (hupdate : ∀ e, frame.update = some e → P e)
    (hbody : ∀ t t', Ready strict names c t → stmt c body names t = .ok ((), t') →
      Passed strict names c t' ∧ Moves t t')
    (hs : bodyStep value stmt c frame body pos names s = .ok ((), s')) :
    Passed strict names c s' ∧ Moves s s' := by
  obtain ⟨_, s1, e1, h1⟩ := bind_ok hs
  obtain ⟨k1, m1⟩ := hbody _ _ h e1
  obtain ⟨st, s2, e2, h2⟩ := bind_ok h1
  obtain ⟨rfl, rfl⟩ := get_ok e2
  split at h2
  · obtain ⟨-, rfl⟩ := pure_ok h2
    exact ⟨k1, m1⟩
  · next hrunning =>
    have r1 := k1.ready fun _ => by simpa using hrunning
    obtain ⟨_, s3, e3, h3⟩ := bind_ok h2
    have hu : Ready strict names c s3 ∧ Moves s2 s3 := by
      unfold runUpdate at e3
      cases hupd : frame.update with
      | none =>
        rw [hupd] at e3
        obtain ⟨-, rfl⟩ := pure_ok e3
        exact ⟨r1, .refl _⟩
      | some e =>
        rw [hupd] at e3
        obtain ⟨x, e4⟩ := discard_ok e3
        obtain ⟨r, m⟩ := hvalue { c with scope := frame.head } e _ _ _ (hupdate e hupd)
          (r1.of_site rfl rfl rfl) e4
        exact ⟨r.of_site rfl rfl rfl, m⟩
    obtain ⟨r4, m4⟩ := hu.1.sync h3
    exact ⟨r4.passed, (m1.trans hu.2).trans m4⟩

/-- The test of a loop. -/
theorem Ready.testStep {x : Operand} (h : Ready strict names c s) (hvalue : KeepsStructure strict names value P)
    (htest : P test) (hs : testStep value c frame test pos names s = .ok (x, s')) :
    Ready strict names c s' ∧ Moves s s' := by
  obtain ⟨y, s1, e1, h1⟩ := bind_ok hs
  obtain ⟨r1, m1⟩ := hvalue _ _ _ _ _ htest h e1
  obtain ⟨_, s2, e2, h2⟩ := bind_ok h1
  obtain ⟨r2, m2⟩ := r1.sync e2
  obtain ⟨rfl, rfl⟩ := pure_ok h2
  exact ⟨r2, m1.trans m2⟩

/-- The state while the blocks of loop `n` are filled. -/
structure InLoop (strict : Prop) (names : Names) (p : Program) (b : BlockId) (n : StmtId) (t : State) :
    Prop where
  owned : Program.Owned strict False p b n t.program
  isLoop : (t.program.stmt n).action.isLoop = true
  next : (t.program.block b).next = none
  values : names.bindings.size ≤ t.values.size
  assigned : names.assigned.Within t.program.assigned

namespace InLoop

variable {p : Program} {b e : BlockId} {n : StmtId}

/-- The cursor at the start of a block of the loop. -/
theorem ready (h : InLoop strict names p b n s) (hframe : frame.loop = n)
    (htail : Program.Tail strict s.program c.func (some n) e) :
    Ready strict names (c.inLoop frame) { s with block := e, terminated := false } := by
  subst hframe
  refine .of_tail h.owned.built htail (fun f hf => ?_) h.values h.assigned fun _ => rfl
  cases hf
  exact .loop h.isLoop

/-- Code in a block of the loop. -/
theorem run (h : InLoop strict names p b n s) (he : p.blocks.size ≤ e)
    (ht : Placed strict names (c.inLoop frame) t)
    (hm : Moves { s with block := e, terminated := false } t) (hs : s'.program = t.program)
    (hv : s'.values = t.values) : InLoop strict names p b n s' where
  owned := by
    rw [hs]
    exact h.owned.run hm.program he ht.built hm.joined
  isLoop := by
    rw [hs, (hm.program.stmt n h.owned.owner.1).isLoop_eq]
    exact h.isLoop
  next := by
    rw [hs, h.owned.next_run hm.program he]
    exact h.next
  values := by
    rw [hv]
    exact ht.values
  assigned := by
    rw [hs]
    exact ht.assigned

theorem runsBody (h : InLoop strict names p b n s) (hframe : frame.loop = n)
    (htail : Program.Tail strict s.program c.func (some n) e) (he : p.blocks.size ≤ e)
    {step : Lower Unit}
    (hstep : ∀ t t', Ready strict names (c.inLoop frame) t → step names t = .ok ((), t') →
      Passed strict names (c.inLoop frame) t' ∧ Moves t t')
    (hs : RunsBody names step e s s') :
    InLoop strict names p b n s' ∧ s.program.Extends e s'.program ∧ s'.block = s.block ∧
      s'.terminated = s.terminated := by
  obtain ⟨t, ht, rfl⟩ := hs
  obtain ⟨hpassed, hm⟩ := hstep _ _ (h.ready hframe htail) ht
  exact ⟨h.run he hpassed.toPlaced hm rfl rfl, hm.program, rfl, rfl⟩

theorem runsTest (h : InLoop strict names p b n s) (hframe : frame.loop = n)
    (htest : Program.Tail strict s.program c.func (some n) e)
    (hheads : ∀ d, d = e ∨ d = e + 1 →
      (s.program.block d).parent = some n ∧ (s.program.block d).prev = none)
    (hlt : e + 1 < s.program.blocks.size)
    (he : p.blocks.size ≤ e) {step : Lower Operand}
    (hstep : ∀ t x t', Ready strict names (c.inLoop frame) t → step names t = .ok (x, t') →
      Ready strict names (c.inLoop frame) t' ∧ Moves t t')
    (hs : RunsTest names step n behind e s s') :
    InLoop strict names p b n s' ∧ s'.block = s.block ∧ s'.terminated = s.terminated ∧
      ∀ d, d ≠ e → Program.Tail strict s.program c.func (some n) d →
        Program.Tail strict s'.program c.func (some n) d := by
  obtain ⟨cond, t, ht, rfl⟩ := hs
  obtain ⟨hready, hm⟩ := hstep _ _ _ (h.ready hframe htest) ht
  have h1 : InLoop strict names p b n t := h.run he hready.toPlaced hm rfl rfl
  obtain ⟨l, hl⟩ := Action.exists_of_isLoop h1.isLoop
  have hends : (testedAction behind e cond).endsBlock = (t.program.stmt n).action.endsBlock := by
    rw [hl]
    rfl
  have hlt' := Nat.lt_trans (Nat.lt_succ_self e) hlt
  refine ⟨⟨h1.owned.setAction (testedAction behind e cond) ?_ ?_ ?_ hends ?_ ?_ ?_ rfl, ?_, h1.next,
    h1.values, h1.assigned⟩, rfl, rfl, fun d hd htd => ?_⟩
  · rw [hl]
    rfl
  · rw [hl]
    rfl
  · rw [hl]
    rfl
  · cases behind <;> exact List.cons_ne_nil _ _
  · exact nodup_blocks_testedAction
  · intro d hd
    have hd := mem_blocks_testedAction.mp hd
    have hd' : d < s.program.blocks.size := by rcases hd with rfl | rfl <;> assumption
    rw [hm.program.parent d hd', hm.program.prev d hd']
    exact hheads d hd
  · rw [Program.stmt_modifyStmt_self _ _ _ h1.owned.owner.1]
    rfl
  · exact (htd.run h.owned.built hm.program hd).setAction hends h1.owned.owner.blocks

/-- The cursor behind the loop. -/
theorem exitLoop (h : InLoop strict names p b n t) (hframe : frame.loop = n)
    (hparent : (p.block b).parent = c.parent) (hfunc : (p.block b).func = c.func)
    (hloop : ∀ f, c.loop = some f → p.Innermost c.parent f.loop)
    (hrunning : strict → t.terminated = false) (hs : exitLoop c frame names t = .ok ((), s')) :
    Ready strict names c s' ∧ p.Extends b s'.program ∧ p.blocks.size ≤ s'.block ∧
      ∀ x, p.stmts.size ≤ x → s'.program.IsJoined x := by
  cases exitLoop_ok hs
  dsimp only
  rw [hframe, h.owned.home]
  obtain ⟨howned, htail⟩ := h.owned.continue h.next hfunc
  rw [hparent] at htail
  exact ⟨.of_tail howned.built htail (fun f hf => howned.program.innermost (hloop f hf))
    (by simpa [State.reloaded, State.continueFrom] using h.values) h.assigned hrunning, howned.program, h.owned.program.blocks_le,
    fun x hx => howned.joined x hx (.inr trivial)⟩

end InLoop

/-- A loop that was just emitted. -/
theorem Ready.emitLoop (h : Ready strict names c s) (action : Action) (effects : List Effect) (k : Nat)
    (pos : Position) (hloop : action.isLoop = true) (hblocks : action.blocks ≠ [])
    (hdistinct : action.blocks.Nodup)
    (hnew : ∀ b, b ∈ action.blocks → s.program.blocks.size ≤ b ∧ b < s.program.blocks.size + k) :
    InLoop strict names s.program s.block s.program.stmts.size (s.emitLoop c action effects pos k) ∧
    ∀ d, s.program.blocks.size ≤ d → d < s.program.blocks.size + k →
      Program.Tail strict (s.emitLoop c action effects pos k).program c.func
        (some s.program.stmts.size) d ∧ ((s.emitLoop c action effects pos k).program.block d).prev = none := by
  obtain ⟨l, rfl⟩ := Action.exists_of_isLoop hloop
  obtain ⟨howned, hnext⟩ := h.own
    (x := { action := .loop l, block := s.block, parent := c.parent, pos, effects })
    k rfl rfl rfl rfl rfl hblocks hdistinct hnew
  refine ⟨⟨howned, ?_, hnext, h.values, fun z hz => howned.program.assigned z (h.assigned z hz)⟩, fun d hd hlt => ?_⟩
  · simp [State.emitLoop, Action.isLoop]
  · have hblock : (s.emitLoop c (.loop l) effects pos k).program.block d =
        { func := c.func, parent := some s.program.stmts.size } := by
      unfold State.emitLoop
      exact Program.block_addBlocks_of_ge _ _ _ _ _ (by simpa using hd) (by simpa using hlt)
    exact ⟨.of_empty (by simpa [State.emitLoop] using hlt) (by rw [hblock]) (by rw [hblock])
      (by rw [hblock]) (by rw [hblock]), by rw [hblock]⟩

/-- The bindings that a loop carries get their merging temps. -/
theorem Ready.enterLoop (h : Ready strict names c s) {bs : List BindingId}
    (hs : bs.mapM (Lowering.enterBinding c pos) names s = .ok (carried, s')) :
    Ready strict names c s' ∧ Moves s s' :=
  mapM_ok (P := fun _ _ t => Ready strict names c t ∧ Moves s t) ⟨h, .refl s⟩
    (fun _ _ _ _ _ _ _ ht hrun =>
      ⟨(ht.1.enterBinding hrun).1, ht.2.trans (ht.1.enterBinding hrun).2⟩) hs

/-- The blocks of a loop with a condition, until code runs in them. -/
def TestedBlocks (strict : Prop) (c : Site) (n : StmtId) (b : BlockId) (s : State) : Prop :=
  ∀ d, d = b ∨ d = b + 1 →
    Program.Tail strict s.program c.func (some n) d ∧ (s.program.block d).prev = none

/-- A loop with a condition that was just emitted. -/
theorem Ready.emitTested (h : Ready strict names c s) (behind : Bool) (pos : Position) :
    InLoop strict names s.program s.block s.program.stmts.size
      (s.startTested c behind pos) ∧
    TestedBlocks strict c s.program.stmts.size s.program.blocks.size
      (s.startTested c behind pos) := by
  have hnew : ∀ d, d = s.program.blocks.size ∨ d = s.program.blocks.size + 1 →
      s.program.blocks.size ≤ d ∧ d < s.program.blocks.size + 2 := by omega
  obtain ⟨i, htails⟩ := h.emitLoop
    (testedAction behind s.program.blocks.size (.literal .undefined)) [] 2 pos rfl
    (by cases behind <;> exact List.cons_ne_nil _ _) nodup_blocks_testedAction
    fun d hd => hnew d (mem_blocks_testedAction.mp hd)
  exact ⟨i, fun d hd => htails d (hnew d hd).1 (hnew d hd).2⟩

namespace InLoop

variable {p : Program} {b d : BlockId} {n : StmtId}

/-- The body of a loop starts behind its test. -/
theorem behindTest {step : Lower Operand} (h : InLoop strict names p d n s)
    (hframe : frame.loop = n) (hblocks : TestedBlocks strict c n b s) (hb : p.blocks.size ≤ b)
    (hstep : ∀ t x t', Ready strict names (c.inLoop frame) t → step names t = .ok (x, t') →
      Ready strict names (c.inLoop frame) t' ∧ Moves t t')
    (hs : RunsTest names step frame.loop behind b s s') :
    InLoop strict names p d n s' ∧ Program.Tail strict s'.program c.func (some n) (b + 1) ∧
      s'.terminated = s.terminated := by
  rw [hframe] at hs
  obtain ⟨htest, -⟩ := hblocks b (.inl rfl)
  obtain ⟨hbody, -⟩ := hblocks (b + 1) (.inr rfl)
  obtain ⟨i, -, hterminated, htails⟩ := h.runsTest hframe htest
    (fun e he => ⟨(hblocks e he).1.parent, (hblocks e he).2⟩) hbody.lt hb hstep hs
  exact ⟨i, htails _ (Nat.succ_ne_self _) hbody, hterminated⟩

/-- The test of a loop starts behind its body. -/
theorem behindBody {step : Lower Unit} (h : InLoop strict names p d n s) (hframe : frame.loop = n)
    (hblocks : TestedBlocks strict c n b s) (hb : p.blocks.size ≤ b)
    (hstep : ∀ t t', Ready strict names (c.inLoop frame) t → step names t = .ok ((), t') →
      Passed strict names (c.inLoop frame) t' ∧ Moves t t')
    (hs : RunsBody names step (b + 1) s s') :
    InLoop strict names p d n (s'.reloaded frame) ∧
      Program.Tail strict (s'.reloaded frame).program c.func (some n) b ∧
      (∀ e, e = b ∨ e = b + 1 → ((s'.reloaded frame).program.block e).parent = some n ∧
        ((s'.reloaded frame).program.block e).prev = none) ∧
      b + 1 < (s'.reloaded frame).program.blocks.size ∧ s'.terminated = s.terminated := by
  obtain ⟨hbody, -⟩ := hblocks (b + 1) (.inr rfl)
  obtain ⟨i, hx, -, hterminated⟩ := h.runsBody hframe hbody (Nat.le_succ_of_le hb) hstep hs
  refine ⟨⟨i.owned, i.isLoop, i.next, by simpa [State.reloaded] using i.values, i.assigned⟩, ?_, fun e he => ?_, ?_,
    hterminated⟩
  · exact (hblocks b (.inl rfl)).1.run h.owned.built hx (Nat.ne_of_lt (Nat.lt_succ_self _))
  · obtain ⟨htail, hprev⟩ := hblocks e he
    rw [State.reloaded, hx.parent _ htail.lt, hx.prev _ htail.lt]
    exact ⟨htail.parent, hprev⟩
  · exact Nat.lt_of_lt_of_le hbody.lt hx.blocks_le

end InLoop

/-- The runs of test and body of a loop in their order, each from a block of the loop where code runs. -/
def LoopRuns (strict : Prop) (names : Names) (c : Site) (value : Part)
    (stmt : Site → Stmt → Lower Unit) (behind : Bool) (test : Expr) (body : Stmt) (pos : Position)
    (frame : Frame) (b : BlockId) (s t u : State) : Prop :=
  (behind = false ∧
    Ready strict names (c.inLoop frame) { s with block := b, terminated := false } ∧
    RunsTest names (testStep value (c.inLoop frame) frame test pos) frame.loop behind b s t ∧
    Ready strict names (c.inLoop frame) { t with block := b + 1, terminated := false } ∧
    RunsBody names (bodyStep value stmt (c.inLoop frame) frame body pos) (b + 1) t u) ∨
  (behind = true ∧
    Ready strict names (c.inLoop frame) { s with block := b + 1, terminated := false } ∧
    RunsBody names (bodyStep value stmt (c.inLoop frame) frame body pos) (b + 1) s t ∧
    Ready strict names (c.inLoop frame) { t.reloaded frame with block := b, terminated := false } ∧
    RunsTest names (testStep value (c.inLoop frame) frame test pos) frame.loop behind b
      (t.reloaded frame) u)

/-- The runs of test and body of a loop with a condition, when these keep the structure of the
program. -/
theorem Ready.testedLoop_runs (h : Ready strict names c s)
    (hvalue : KeepsStructure strict names value P) (htest' : P test)
    (hupdate : ∀ e, update = some e → P e)
    (hbody : ∀ f, f.update = update → f.head = c.scope → ∀ t t', Ready strict names (c.inLoop f) t →
      stmt (c.inLoop f) body names t = .ok ((), t') →
        Passed strict names (c.inLoop f) t' ∧ Moves t t')
    (hs : Lowering.testedLoop value stmt c behind test body update pos names s = .ok ((), s')) :
    ∃ carried s1 s2 s3 frame,
      enterTested names c test update body pos names { s with tracking := {} } = .ok (carried, s1) ∧
      Ready strict names c s1 ∧ Moves s s1 ∧
      frame = { loop := s1.program.stmts.size, carried, update, head := c.scope } ∧
      InLoop strict names s1.program s1.block s1.program.stmts.size
        (s1.startTested c behind pos) ∧
      LoopRuns strict names c value stmt behind test body pos frame s1.program.blocks.size
        (s1.startTested c behind pos)
        s2 s3 ∧
      InLoop strict names s1.program s1.block s1.program.stmts.size s3 ∧
      s3.terminated = s1.terminated ∧ exitLoop c frame names s3 = .ok ((), s') := by
  obtain ⟨carried, s1, s2, s3, frame, hc, hframe, hparts, hexit⟩ := testedLoop_ok hs
  obtain ⟨k1, m1⟩ := (h.of_eq (t := { s with tracking := {} }) rfl rfl (Nat.le_refl _) rfl).enterLoop hc
  have hloop : frame.loop = s1.program.stmts.size := by rw [hframe]
  have hupd : ∀ e, frame.update = some e → P e := by
    rw [hframe]
    exact hupdate
  obtain ⟨i1, hblocks⟩ := k1.emitTested behind pos
  have hteststep : ∀ t x t', Ready strict names (c.inLoop frame) t →
      Lowering.testStep value (c.inLoop frame) frame test pos names t = .ok (x, t') →
        Ready strict names (c.inLoop frame) t' ∧ Moves t t' :=
    fun t x t' ht hrun => ht.testStep hvalue htest' hrun
  have hbodystep : ∀ t t', Ready strict names (c.inLoop frame) t →
      Lowering.bodyStep value stmt (c.inLoop frame) frame body pos names t = .ok ((), t') →
        Passed strict names (c.inLoop frame) t' ∧ Moves t t' :=
    fun t t' ht hrun => ht.bodyStep hvalue hupd (hbody frame (by rw [hframe]) (by rw [hframe])) hrun
  refine ⟨carried, s1, s2, s3, frame, hc, k1, ⟨m1.program, m1.block, m1.joined⟩, hframe, i1, ?_⟩
  rcases hparts with ⟨hfirst, ht, hb⟩ | ⟨hfirst, hb, ht⟩
  · obtain ⟨i2, hbodyTail, t2⟩ := i1.behindTest hloop hblocks (Nat.le_refl _) hteststep ht
    obtain ⟨i3, -, -, t3⟩ := i2.runsBody hloop hbodyTail (Nat.le_succ _) hbodystep hb
    exact ⟨.inl ⟨hfirst, i1.ready hloop (hblocks _ (.inl rfl)).1, ht, i2.ready hloop hbodyTail, hb⟩, i3,
      t3.trans t2, hexit⟩
  · obtain ⟨i2, htestTail, hheads, hlt, t2⟩ :=
      i1.behindBody hloop hblocks (Nat.le_refl _) hbodystep hb
    have ht' := ht
    rw [hloop] at ht'
    obtain ⟨i3, -, t3, -⟩ := i2.runsTest hloop htestTail hheads hlt (Nat.le_refl _) hteststep ht'
    exact ⟨.inr ⟨hfirst, i1.ready hloop (hblocks _ (.inr rfl)).1, hb, i2.ready hloop htestTail, ht⟩, i3,
      t3.trans t2, hexit⟩

/-- A loop with a condition keeps the structure of the program when its parts do. -/
theorem Ready.testedLoop (h : Ready strict names c s)
    (hvalue : KeepsStructure strict names value P) (htest : P test)
    (hupdate : ∀ e, update = some e → P e)
    (hbody : ∀ f, f.update = update → f.head = c.scope → ∀ t t', Ready strict names (c.inLoop f) t →
      stmt (c.inLoop f) body names t = .ok ((), t') →
        Passed strict names (c.inLoop f) t' ∧ Moves t t')
    (hs : Lowering.testedLoop value stmt c behind test body update pos names s = .ok ((), s')) :
    Ready strict names c s' ∧ Moves s s' := by
  obtain ⟨carried, s1, s2, s3, frame, -, k1, m1, hframe, -, -, i3, t3, hexit⟩ :=
    h.testedLoop_runs hvalue htest hupdate hbody hs
  obtain ⟨r4, x4, hle, j4⟩ := i3.exitLoop (by rw [hframe]) k1.parent k1.func k1.loop
    (by rw [t3]; exact k1.running) hexit
  exact ⟨r4, m1.trans ⟨x4, .inr hle, j4⟩⟩

/-- The run of the body of a loop over keys or values, when it keeps the structure of the program. -/
theorem Ready.iteratedLoop_runs (value : Part) {of : Bool} (h : Ready strict names c s)
    (hvalue : KeepsStructure strict names value P)
    (hbody : ∀ f, f.update = none → ∀ t t', Ready strict names (c.inLoop f) t →
      stmt (c.inLoop f) body names t = .ok ((), t') →
        Passed strict names (c.inLoop f) t' ∧ Moves t t')
    (hs : Lowering.iteratedLoop stmt c of isDeclared name object body pos names s = .ok ((), s')) :
    ∃ declared assigned carried s1 s2 s3 frame each,
      declared = (match names.resolve c.scope name with
        | some b => if isDeclared then s.declared.setIfInBounds b true else s.declared
        | none => s.declared) ∧
      (iteratedBindings names c name body).mapM (Lowering.enterBinding c pos) names
        { s with declared, tracking := {} } = .ok (carried, s1) ∧
      Ready strict names c s1 ∧ Moves s s1 ∧
      s1.program.assigned.Within assigned ∧ s2 = { s1 with program := { s1.program with assigned } } ∧
      frame = { loop := s2.program.stmts.size, carried, update := none, head := c.scope } ∧
      each = placeOfEach names name (names.resolve c.scope name) carried ∧
      Ready strict names (c.inLoop frame) { s2.startIterated c of each object pos with
          block := s2.program.blocks.size, terminated := false } ∧
      RunsBody names (Lowering.bodyStep value stmt (c.inLoop frame) frame body pos) s2.program.blocks.size
        (s2.startIterated c of each object pos) s3 ∧
      InLoop strict names s2.program s2.block s2.program.stmts.size s3 ∧
      s3.terminated = s2.terminated ∧ exitLoop c frame names s3 = .ok ((), s') := by
  obtain ⟨declared, assigned, carried, s1, s3, frame, each, hdeclared, hc, hframe, heach, hassigned, hrun, hexit⟩ :=
    iteratedLoop_ok value hs
  obtain ⟨k1, m1⟩ :=
    (h.of_eq (t := { s with declared, tracking := {} }) rfl rfl (Nat.le_refl _) rfl).enterLoop hc
  have hloop : frame.loop = s1.program.stmts.size := by rw [hframe]
  obtain ⟨k2, -⟩ := k1.setAssigned hassigned
  obtain ⟨i1, htails⟩ := k2.emitLoop
    (.loop { head := .iterated of each object, body := s1.program.blocks.size })
    (if each.isNamed then [.mutation each] else []) 1 pos rfl
    (List.cons_ne_nil _ _) (by simp [Action.blocks, Loop.blocks]) (fun b hb => by
      cases List.mem_singleton.mp hb
      exact ⟨Nat.le_refl _, Nat.lt_succ_self _⟩)
  have htail := (htails s1.program.blocks.size (Nat.le_refl _) (Nat.lt_succ_self _)).1
  obtain ⟨i2, x2, b2, t2⟩ := i1.runsBody hloop htail (Nat.le_refl _)
    (fun t t' ht hrun => ht.bodyStep hvalue (fun e he => by rw [hframe] at he; cases he)
      (hbody frame (by rw [hframe])) hrun) hrun
  exact ⟨declared, assigned, carried, s1, _, s3, frame, each, hdeclared, hc, k1,
    ⟨m1.program, m1.block, m1.joined⟩, hassigned, rfl, hframe, heach, i1.ready hloop htail, hrun, i2, t2, hexit⟩

/-- A loop over keys or values keeps the structure of the program when its body does. -/
theorem Ready.iteratedLoop {of : Bool} (h : Ready strict names c s)
    (hbody : ∀ f, f.update = none → ∀ t t', Ready strict names (c.inLoop f) t →
      stmt (c.inLoop f) body names t = .ok ((), t') →
        Passed strict names (c.inLoop f) t' ∧ Moves t t')
    (hs : Lowering.iteratedLoop stmt c of isDeclared name object body pos names s = .ok ((), s')) :
    Ready strict names c s' ∧ Moves s s' := by
  -- The loop has no update, so it does not matter how expressions are lowered.
  have hvalue : KeepsStructure strict names (fun _ _ => pure default) fun _ => True := by
    intro c e s x s' _ hr hx
    obtain ⟨-, rfl⟩ := pure_ok hx
    exact ⟨hr, .refl _⟩
  obtain ⟨declared, assigned, carried, s1, s2, s3, frame, each, -, -, k1, m1, hassigned, hs2, hframe, -, -, -, i3, t3,
    hexit⟩ := h.iteratedLoop_runs _ hvalue hbody hs
  obtain ⟨k2, m2⟩ := k1.setAssigned hassigned
  rw [← hs2] at k2 m2
  obtain ⟨r4, x4, hle, j4⟩ := i3.exitLoop (by rw [hframe]) k2.parent k2.func k2.loop (by rw [t3]; exact k2.running)
    hexit
  exact ⟨r4, (m1.trans m2).trans ⟨x4, .inr hle, j4⟩⟩

end ScriptOptimizer.Lowering
