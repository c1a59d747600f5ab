import ScriptOptimizer.Proofs.LoweringCode

/-!
# The structure of lowered programs

Lowering keeps the structure of the program. The statements that end a block end up last if every loop
starts with a declaration or an expression.
-/

namespace ScriptOptimizer.Lowering

open IR

variable {strict : Prop} {names : Names} {c : Site} {s s' t : State} {pos : Position}

/-! ## Basic steps -/

theorem Ready.declare (h : Ready strict names c s) (r : Option BindingId) :
    Ready strict names c (s.declare r) := by
  cases r with
  | none => exact h
  | some b => exact h.of_eq rfl rfl (Nat.le_refl _) rfl

theorem Moves.declare (h : Moves s t) (r : Option BindingId) : Moves s (t.declare r) := by
  cases r with
  | none => exact h
  | some b => exact h.of_eq rfl rfl

theorem Ready.stores (h : Ready strict names c s) {r : Option BindingId} {name : String} {v : Operand}
    (hs : Stores names c pos r name v s s') :
    Ready strict names c s' ∧ Moves s s' := by
  obtain ⟨place, assigned, -, hassigned, hs⟩ := hs
  obtain ⟨k1, m1⟩ := h.setAssigned hassigned
  obtain ⟨_, t2, e2, h2⟩ := bind_ok hs
  cases e2
  obtain ⟨x, e3⟩ := discard_ok h2
  have k2 := k1.of_eq (t := { s with
    program := { s.program with assigned }
    tracking := ([v].filterMap Operand.temp?).foldl (fun t x => t.erase x) s.tracking })
    rfl rfl (Nat.le_refl _) rfl
  obtain ⟨-, m3, r3⟩ := k2.emit rfl rfl rfl (fun _ hl => by cases hl) e3
  exact ⟨r3 rfl, m1.trans ⟨m3.program, m3.block, m3.joined⟩⟩

theorem Ready.writeName (h : Ready strict names c s) {r : Option BindingId} {name : String}
    {v x : Operand} (hs : writeName c r name v pos names s = .ok (x, s')) :
    Ready strict names c s' ∧ Moves s s' := by
  rcases writeName_ok hs with ⟨-, hs⟩ | ⟨b, -, -, -, -, t, ht, rfl⟩
  · exact h.stores hs
  · rcases ht with ⟨-, -, rfl⟩ | ht
    · exact ⟨h.of_eq rfl rfl (by simp) rfl, (Moves.refl _).of_eq rfl rfl⟩
    · obtain ⟨k, m⟩ := h.temp (by simp) ht
      exact ⟨k.of_eq rfl rfl (by simp) rfl, m.of_eq rfl rfl⟩

theorem Ready.leave {action : Operand → Action} {v : Operand} (h : Ready strict names c s)
    (haction : action = .returnValue ∨ action = .throwValue)
    (hs : leave c action v pos names s = .ok ((), s')) : Passed strict names c s' ∧ Moves s s' := by
  obtain ⟨_, s1, e1, h1⟩ := bind_ok hs
  cases e1
  obtain ⟨_, s2, e2, h2⟩ := bind_ok h1
  obtain ⟨x, e3⟩ := discard_ok e2
  have k1 := h.of_eq (t := { s with
    tracking := ([v].filterMap Operand.temp?).foldl (fun t x => t.erase x) s.tracking })
    rfl rfl (Nat.le_refl _) rfl
  obtain ⟨hp, m, -⟩ := k1.emit (by rcases haction with rfl | rfl <;> rfl)
    (by rcases haction with rfl | rfl <;> rfl) (by rcases haction with rfl | rfl <;> rfl)
    (fun l hl => by rcases haction with rfl | rfl <;> cases hl) e3
  cases h2
  exact ⟨⟨hp.of_eq rfl rfl (Nat.le_refl _), nofun⟩,
    ⟨m.program, m.block, m.joined⟩⟩

theorem Ready.jumpTo {frame : Frame} {a : Action} (h : Ready strict names c s)
    (hl : c.loop = some frame) (ha : a = .continueLoop frame.loop ∨ a = .breakLoop frame.loop)
    (hs : jumpTo c frame a pos names s = .ok ((), s')) : Passed strict names c s' ∧ Moves s s' := by
  obtain ⟨_, t2, e2, h2⟩ := bind_ok hs
  obtain ⟨k2, m2⟩ := h.sync e2
  obtain ⟨_, t3, e3, h3⟩ := bind_ok h2
  obtain ⟨x, e4⟩ := discard_ok e3
  have hjump : ∀ l, a.jump? = some l → t2.program.Innermost c.parent l := by
    intro l hl'
    have hframe : l = frame.loop := by rcases ha with rfl | rfl <;> exact (Option.some.inj hl').symm
    rw [hframe]
    exact k2.loop frame hl
  obtain ⟨hp, m3, -⟩ := k2.emit (by rcases ha with rfl | rfl <;> rfl)
    (by rcases ha with rfl | rfl <;> rfl) (by rcases ha with rfl | rfl <;> rfl) hjump e4
  cases h3
  exact ⟨⟨hp.of_eq rfl rfl (Nat.le_refl _), nofun⟩,
    (m2.trans m3).of_eq rfl rfl⟩

theorem Ready.bindFunction {i : FuncId} {b : BindingId} (h : Ready strict names c s)
    (hs : BindsFunction names c pos i b s s') : Ready strict names c s' ∧ Moves s s' := by
  rcases hs with ⟨-, place, x, hplace, e⟩ | ⟨-, rfl⟩
  · obtain ⟨-, m, r⟩ := h.emit
      (show (Action.declare place i (names.binding b).output).temp? = none by cases place <;> trivial) rfl rfl
      nofun e
    exact ⟨r rfl, m⟩
  · obtain ⟨k, m⟩ := h.define
      (x := { action := .declare (.temp ⟨s.block, (s.program.block s.block).slots.size⟩) i
                (names.binding b).output,
              block := s.block, parent := c.parent, pos }) rfl rfl rfl rfl rfl rfl rfl rfl
    exact ⟨k.of_eq rfl rfl (by simp) rfl, m.of_eq rfl rfl⟩

/-! ## Functions -/

/-- The start of a function. -/
theorem Ready.enterFunction (h : Ready strict names c s) (i : FuncId) (depth : Nat) :
    Ready strict names (.ofFunction names i depth) (s.enterFunction i) := by
  exact .of_tail (h.built.addBlock i none nofun) (.of_new _ i none) nofun h.values h.assigned fun _ => rfl

/-- Behind a function the code around it goes on. -/
theorem Ready.exitFunction {i : FuncId} {depth : Nat} (h : Ready strict names c s)
    (hp : Passed strict names (.ofFunction names i depth) t) (hm : Moves (s.enterFunction i) t) :
    Ready strict names c (s.exitFunction t) ∧ Moves s (s.exitFunction t) := by
  have h0 := h.enterFunction i depth
  have htail : Program.Tail strict t.program c.func c.parent s.block := by
    refine Program.Tail.run (p := s.program.addBlock i none) ?_ h0.built hm.program (Nat.ne_of_lt h.lt)
    exact h.tail.addBlock i none
  have hext : s.program.Extends s.block t.program :=
    ((Program.Extends.refl s.block s.program).addBlock i none).trans hm.program (.inr (Nat.le_refl _))
  exact ⟨.of_tail hp.built htail (fun g hg => hext.innermost (h.loop g hg)) hp.values hp.assigned h.running,
    ⟨hext, .inl rfl, hm.joined⟩⟩

/-! ## The law -/

/-- The rule for the nodes of a tree that is lowered. -/
def PlainIf (strict : Prop) (n : Node) : Prop := strict → startsPlain n = true

/-- A loop starts with a statement that control passes. -/
private theorem isPassed_of_startsPlain {p : Position} {scope : Option Nat} {i : Stmt}
    {test update : Option Expr} {b : Stmt}
    (h : startsPlain (.stmt (.forLoop p scope (some i) test update b)) = true) : isPassed i = true := by
  cases i with
  | varDecl | expr => rfl
  | _ => cases h

/-- The law that lowering keeps the structure of the program. -/
def structureLaw (strict : Prop) (names : Names) : CodeLaw names where
  Inv := Ready strict names
  Ok _ _ := True
  Step := Moves
  Tree _ _ e := e.All (PlainIf strict)
  Body _ _ f := f.All (PlainIf strict)
  Writes _ _ _ := True
  Code _ _ x := x.All (PlainIf strict)
  Binds _ _ _ := True
  Behind := Passed strict names
  Pass _ := Moves
  step_refl := .refl
  step_trans := .trans
  ok_step _ _ := trivial
  ok_fixed _ := trivial
  tree_part h ha := h.part ha
  tree_function h := h.function
  tree_logical h := h.logicalAssign fun _ _ => rfl
  writes_assign _ _ := trivial
  writes_update _ _ := trivial
  inv_depth d := ⟨fun h => h.of_site rfl rfl rfl, fun h => h.of_site rfl rfl rfl⟩
  inv_values h := h.values
  inv_tracking _ h := ⟨h.of_eq rfl rfl (Nat.le_refl _) rfl, (Moves.refl _).of_eq rfl rfl⟩
  inv_shape u g h _ := h.modifySlot u (fun y => { y with shape := g y.shape }) fun _ => rfl
  inv_newResult v h _ := ⟨h.of_eq rfl rfl (by simp) rfl, (Moves.refl _).of_eq rfl rfl⟩
  inv_setResult v _ h _ := ⟨h.of_eq rfl rfl (by simp) rfl, (Moves.refl _).of_eq rfl rfl⟩
  temp h hv _ hs :=
    have hr := h.temp hv hs
    ⟨hr.1, hr.2, trivial⟩
  emitMember h _ _ _ hs :=
    have hr := h.emit rfl rfl rfl (fun _ hl => by cases hl) hs
    ⟨hr.2.2 rfl, hr.2.1⟩
  readName _ _ hs := ⟨(readName_ok hs).1, trivial⟩
  writeName _ _ h _ hs :=
    have hr := h.writeName hs
    ⟨hr.1, hr.2, trivial⟩
  branch h _ _ _ harms hs := by
    obtain ⟨hpassed, hm, hend⟩ := branch_passed h (fun arm harm t t' ht hrun =>
      have hr := harms arm harm _ t t' ht (fun _ _ => trivial) hrun
      ⟨hr.1.passed, hr.2.1⟩) hs
    refine ⟨hpassed.ready fun hst => ?_, hm, fun _ _ => trivial⟩
    rcases hend with hend | ⟨-, t, t', ht, hrun, hstop⟩
    · exact hend hst
    · have hrunning := (harms _ (.inl rfl) _ t t' ht (fun _ _ => trivial) hrun).1.running hst
      rw [hstop] at hrunning
      cases hrunning
  code_expr h he := all_exprsOf h (fun _ => rfl) he
  code_stmt h hy := all_stmtsOf h hy
  code_declares _ _ _ := ⟨⟨{}, fun v hv _ => by
    simp only [Walk.expr, List.mem_singleton] at hv
    rw [hv]
    rfl⟩, trivial⟩
  code_function h := h.function
  code_binds _ _ := trivial
  body_stmt h _ hx := all_bodyOf h (fun _ _ => rfl) (fun _ _ _ => rfl) (fun _ _ _ _ => rfl) hx
  body_binds _ _ _ := trivial
  pass_refl _ := .refl
  pass_trans := .trans
  pass_step h := h
  behind_inv h := h.passed
  inv_behind h hs := h.ready fun _ => hs
  inv_first hx h hi := by
    refine h.ready fun hst => ?_
    exact (hi (isPassed_of_startsPlain (hx.forLoop.1 hst))).running hst
  inv_scope _ h := h.of_site rfl rfl rfl
  behind_site hf hp hl _ h := h.of_site hf hp hl
  inv_declare r h := ⟨h.declare r, (Moves.refl _).declare r⟩
  initVar _ _ _ h hs := by
    obtain ⟨hr, hm⟩ := h.temp (by simp) hs
    exact ⟨hr.of_eq rfl rfl (by simp) rfl, hm.of_eq rfl rfl⟩
  directive h hs :=
    have hr := h.emit rfl rfl rfl (fun _ hl => by cases hl) hs
    ⟨hr.2.2 rfl, hr.2.1⟩
  leave action ha h _ hs := h.leave ha hs
  jump hl ha h hs := h.jumpTo hl ha hs
  declare _ _ h hs := h.bindFunction hs
  enter h _ := h.enterFunction _ _
  exit h hb hp := h.exitFunction hb hp
  ifElse h _ harms hs := by
    obtain ⟨hpassed, hm, hend⟩ := branch_passed h harms hs
    refine ⟨hpassed, hm, fun hnone => hpassed.ready ?_⟩
    rcases hend with hend | ⟨hne, -⟩
    · exact hend
    · exact (hne hnone).elim
  testedLoop _ _ _ hv htest hupdate _ hbody h hs :=
    h.testedLoop (P := Expr.All (PlainIf strict)) (fun c e s x s' he hi hx =>
      have hk := ((hv c e s he hi).gives hx).1
      ⟨hk.inv, hk.step⟩) htest hupdate hbody hs
  iteratedLoop _ _ _ hbody h hs := h.iteratedLoop hbody hs

/-- A program without blocks and statements obeys the rules. -/
private theorem built_empty {p : Program} (hb : p.blocks.size = 0) (hs : p.stmts.size = 0)
    (hf : ∀ f, (p.function f).blocks = []) : p.Built strict := by
  have hblock : ∀ b, p.block b = default := fun b => p.block_of_ge b (hb ▸ Nat.zero_le b)
  have hstmt : ∀ x, p.stmt x = default := fun x => p.stmt_of_ge x (hs ▸ Nat.zero_le x)
  have hmem : ∀ {b : BlockId} {x : StmtId}, x ∉ (p.block b).stmts := by
    intro b x hx
    rw [hblock] at hx
    cases hx
  have hdefinition : ∀ t, p.definition? t = none := by
    intro t
    unfold Program.definition? Program.slot?
    rw [hblock]
    rfl
  refine ⟨fun _ _ h => (hmem h).elim, fun _ _ h => (hmem h).elim, fun b => ?_,
    fun _ _ _ h => (hmem h).elim, fun t _ h => ?_, fun x _ h => ?_, fun b _ h => ?_, fun d _ h => ?_,
    fun b _ h => ?_, fun _ c h => ?_, fun _ _ _ h => (hmem h).elim, fun _ _ _ h => (hmem h).elim,
    fun _ _ _ h => (hmem h).elim, fun _ _ h => (hmem h).elim, fun x => ?_, fun f _ => ?_, fun b _ h => ?_,
    fun b _ h => ?_⟩
  · rw [hblock]
    exact List.nodup_nil
  · rw [hdefinition] at h
    cases h
  · rw [hstmt] at h
    cases h
  · rw [hblock] at h
    cases h
  · rw [hstmt] at h
    cases h
  · rw [hblock] at h
    cases h
  · rw [hblock] at h
    cases h
  · rw [hstmt]
    exact List.nodup_nil
  · rw [hf, hb]
    rfl
  · rw [hblock] at h
    cases h
  · rw [hblock] at h
    cases h

/-- The site of the statements of a script. -/
def Site.ofScript (names : Names) : Site := { func := topFunc, scope := (names.function topFunc).scope }

/-- The state in which the statements of a script are lowered. -/
def State.ofScript (names : Names) : State :=
  { initial names with
    program := (initial names).program.addBlock topFunc none
    block := (initial names).program.blocks.size }

theorem script_ok {x : Script} (h : script names x names (initial names) = .ok ((), t)) :
    body (function maxSteps) (stmt maxSteps) (.ofScript names) x.body names (.ofScript names) =
      .ok ((), t) := by
  obtain ⟨b, s1, e1, h1⟩ := bind_ok h
  rw [newBlock_apply] at e1
  cases e1
  obtain ⟨_, s2, e2, h2⟩ := bind_ok h1
  cases e2
  exact h2

theorem ready_ofScript (strict : Prop) (names : Names) :
    Ready strict names (.ofScript names) (.ofScript names) := by
  have hempty : (initial names).program.Built strict := built_empty rfl rfl fun f => by
    simp [initial, Program.function]
    cases names.functions[f]? <;> rfl
  exact .of_tail (hempty.addBlock topFunc none (by simp)) (.of_new _ topFunc none) (fun _ h => by cases h)
    (Nat.le_of_eq (Array.size_map ..).symm) (fun _ h => h) fun _ => rfl

/-- A law holds behind the statements of a script. -/
theorem CodeLaw.script_passes (L : CodeLaw names) {x : Script}
    (hx : ∀ y, y ∈ x.body → L.Code topFunc (names.function topFunc).scope y)
    (hbinds : ∀ p f, .function p f ∈ x.body → L.Binds topFunc (names.function topFunc).scope f)
    (hi : L.Inv (.ofScript names) (.ofScript names)) (h : script names x names (initial names) = .ok ((), t)) :
    L.Passes (.ofScript names) (.ofScript names) t :=
  ((L.obey_parts maxSteps).body (fun f e hf => by cases hf) hx hbinds hi).gives (script_ok h)

/-- Lowering a script with resolved names keeps the structure of the program, and the rules about the ends
of blocks if its loops start with declarations or expressions. -/
theorem script_passed {x : Script} (h : script names x names (initial names) = .ok ((), t)) :
    Passed (x.All (startsPlain · = true)) names (.ofScript names) t ∧ Moves (.ofScript names) t := by
  generalize hstrict : x.All (startsPlain · = true) = strict
  have hplain : ∀ y, y ∈ x.body → y.All (PlainIf strict) := by
    intro y hy v hv hst
    rw [← hstrict] at hst
    exact hst.body hy v hv
  have hpass := (structureLaw strict names).script_passes hplain (fun _ _ _ => trivial) (ready_ofScript strict names) h
  exact ⟨hpass.behind, hpass.pass⟩

theorem script_built {x : Script} (h : script names x names (initial names) = .ok ((), t)) :
    t.program.Built (x.All (startsPlain · = true)) := (script_passed h).1.built

/-- Every branch and loop of the program is continued behind its blocks. -/
theorem script_joined {x : Script} (h : script names x names (initial names) = .ok ((), t)) (y : StmtId) :
    t.program.IsJoined y := (script_passed h).2.joined y (Nat.zero_le y)

end ScriptOptimizer.Lowering
