import ScriptOptimizer.Proofs.LoweringLaw
import ScriptOptimizer.Proofs.LoweringProgram

/-!
# The cursor of lowering

`Placed` says that the cursor stands where a site says, in a program built so far. The basic steps of
lowering keep it, and extend the program from the block of the cursor on.
-/

namespace ScriptOptimizer.Lowering

open IR

/-- The cursor stands at a site. -/
structure Placed (strict : Prop) (names : Names) (c : Site) (s : State) : Prop where
  built : s.program.Built strict
  lt : s.block < s.program.blocks.size
  func : (s.program.block s.block).func = c.func
  parent : (s.program.block s.block).parent = c.parent
  next : (s.program.block s.block).next = none
  plain : s.program.Plain s.block
  loop : ∀ f, c.loop = some f → s.program.Innermost c.parent f.loop
  values : names.bindings.size ≤ s.values.size
  assigned : names.assigned.Within s.program.assigned

/-- The cursor stands where further code runs. -/
structure Ready (strict : Prop) (names : Names) (c : Site) (s : State) : Prop extends
    Placed strict names c s where
  running : strict → s.terminated = false
  clear : strict → s.program.Open s.block

/-- The cursor stands behind a statement. -/
structure Passed (strict : Prop) (names : Names) (c : Site) (s : State) : Prop extends
    Placed strict names c s where
  clear : strict → s.terminated = false → s.program.Open s.block

/-- Lowering from one state to another extends the program from the cursor on, which moves to a new
block if at all. What it adds that owns blocks is continued behind them. -/
structure Moves (s s' : State) : Prop where
  program : s.program.Extends s.block s'.program
  block : s'.block = s.block ∨ s.program.blocks.size ≤ s'.block
  joined : ∀ x, s.program.stmts.size ≤ x → s'.program.IsJoined x

namespace Moves

variable {s s' t : State}

theorem refl (s : State) : Moves s s := ⟨.refl _ _, .inl rfl, fun _ hx => Program.isJoined_of_ge hx⟩

theorem trans (h : Moves s s') (k : Moves s' t) : Moves s t where
  program := h.program.trans k.program h.block
  block := by
    rcases k.block with hk | hk
    · rw [hk]
      exact h.block
    · exact .inr (Nat.le_trans h.program.blocks_le hk)
  joined x hx := k.program.isJoined k.joined (h.joined x hx)

/-- Nothing but the program and the cursor matters. -/
theorem of_eq (h : Moves s s') (hp : t.program = s'.program) (hb : t.block = s'.block) : Moves s t where
  program := by
    rw [hp]
    exact h.program
  block := by
    rw [hb]
    exact h.block
  joined := by
    rw [hp]
    exact h.joined

end Moves

variable {strict : Prop} {names : Names} {c : Site} {s s' t : State}

/-- Nothing but the program, the cursor and the room for values matters. -/
theorem Placed.of_eq (h : Placed strict names c s) (hp : t.program = s.program) (hb : t.block = s.block)
    (hv : s.values.size ≤ t.values.size) : Placed strict names c t where
  built := by
    rw [hp]
    exact h.built
  lt := by
    rw [hp, hb]
    exact h.lt
  func := by
    rw [hp, hb]
    exact h.func
  parent := by
    rw [hp, hb]
    exact h.parent
  next := by
    rw [hp, hb]
    exact h.next
  plain := by
    rw [hp, hb]
    exact h.plain
  loop := by
    rw [hp]
    exact h.loop
  values := Nat.le_trans h.values hv
  assigned := by
    rw [hp]
    exact h.assigned

theorem Ready.of_eq (h : Ready strict names c s) (hp : t.program = s.program) (hb : t.block = s.block)
    (hv : s.values.size ≤ t.values.size) (ht : t.terminated = s.terminated) : Ready strict names c t where
  toPlaced := h.toPlaced.of_eq hp hb hv
  running := by
    rw [ht]
    exact h.running
  clear := by
    rw [hp, hb]
    exact h.clear

theorem Ready.passed (h : Ready strict names c s) : Passed strict names c s :=
  ⟨h.toPlaced, fun hst _ => h.clear hst⟩

/-- Where control reaches the cursor, further code runs there. -/
theorem Passed.ready (h : Passed strict names c s) (hs : strict → s.terminated = false) :
    Ready strict names c s :=
  ⟨h.toPlaced, hs, fun hst => h.clear hst (hs hst)⟩

/-! ## Emission -/

/-- A cursor at the end of a block is ready where control reaches it. -/
theorem Ready.of_tail (hbuilt : s.program.Built strict)
    (h : Program.Tail strict s.program c.func c.parent s.block)
    (hloop : ∀ f, c.loop = some f → s.program.Innermost c.parent f.loop)
    (hv : names.bindings.size ≤ s.values.size) (ha : names.assigned.Within s.program.assigned)
    (hs : strict → s.terminated = false) : Ready strict names c s :=
  ⟨⟨hbuilt, h.lt, h.func, h.parent, h.next, h.plain, hloop, hv, ha⟩, hs, h.clear⟩

theorem Ready.tail (h : Ready strict names c s) : Program.Tail strict s.program c.func c.parent s.block :=
  ⟨h.lt, h.func, h.parent, h.next, h.clear, h.plain⟩

/-- Code may go on at the end of a block while the program is extended. -/
theorem Ready.extend (h : Ready strict names c s) (hm : Moves s s') (hbuilt : s'.program.Built strict)
    (htail : Program.Tail strict s'.program c.func c.parent s'.block) (hv : s'.values = s.values)
    (hs : s'.terminated = s.terminated) : Ready strict names c s' :=
  .of_tail hbuilt htail (fun f hf => hm.program.innermost (h.loop f hf)) (hv ▸ h.values)
    (fun n hn => hm.program.assigned n (h.assigned n hn)) (hs ▸ h.running)

/-- Further names may be assigned. -/
theorem Ready.setAssigned (h : Ready strict names c s) {a : NameSet} (ha : s.program.assigned.Within a) :
    Ready strict names c { s with program := { s.program with assigned := a } } ∧
    Moves s { s with program := { s.program with assigned := a } } :=
  have hm : Moves s { s with program := { s.program with assigned := a } } :=
    ⟨(Program.Extends.refl _ _).setAssigned ha, .inl rfl, fun _ hx => Program.isJoined_of_ge hx⟩
  ⟨h.extend hm (h.built.setAssigned a) (h.tail.reslot (.setAssigned _ a)) rfl rfl, hm⟩

theorem Ready.modifySlot (h : Ready strict names c s) (u : TempId) (f : Slot → Slot)
    (hf : ∀ y, (f y).definition = y.definition) :
    Ready strict names c { s with program := s.program.modifySlot u f } ∧
    Moves s { s with program := s.program.modifySlot u f } :=
  have hm : Moves s { s with program := s.program.modifySlot u f } :=
    ⟨(Program.Extends.refl _ _).modifySlot u f hf, .inl rfl, fun _ hx => Program.isJoined_of_ge hx⟩
  ⟨h.extend hm (h.built.modifySlot u f hf) (h.tail.reslot (.modifySlot _ u f)) rfl rfl, hm⟩

/-- The statement that emission adds. -/
private theorem Placed.addStmt (h : Placed strict names c s) (x : IR.Stmt) (hx : x.parent = c.parent)
    (hc : x.action.copies = []) (hd : x.action.blocks.Nodup) : (s.program.addStmt x).Built strict := by
  refine h.built.addStmt x (fun q hq => (h.built.blockOwner s.block q ?_).1) hc hd
  rw [h.parent, ← hx]
  exact hq

private theorem Placed.new_not_mem (h : Placed strict names c s) (b : BlockId) :
    s.program.stmts.size ∉ (s.program.block b).stmts := fun hm =>
  Nat.lt_irrefl _ (h.built.home b _ hm).1

/-- Emission of a statement that neither defines a temp nor owns blocks. -/
theorem Ready.emit (h : Ready strict names c s) {action : Action} {pos : Position}
    {effects : List Effect} {x : StmtId} (htemp : action.temp? = none) (hblocks : action.blocks = [])
    (hcopies : action.copies = []) (hjump : ∀ l, action.jump? = some l → s.program.Innermost c.parent l)
    (he : emit c action pos effects names s = .ok (x, s')) :
    Placed strict names c s' ∧ Moves s s' ∧ (action.endsBlock = false → Ready strict names c s') := by
  rw [emit_apply] at he
  cases he
  generalize hx : ({ action, block := s.block, parent := c.parent, pos, effects } : IR.Stmt) = x
  have hxa : x.action = action := by rw [← hx]
  have hxb : x.block = s.block := by rw [← hx]
  have hxp : x.parent = c.parent := by rw [← hx]
  have hadd := h.toPlaced.addStmt x hxp (by rw [hxa, hcopies]) (by simp [hxa, hblocks])
  have htail := h.tail.addStmt h.built x
  have hbuilt : ((s.program.addStmt x).place s.block s.program.stmts.size).Built strict := by
    refine hadd.place (x := x) ⟨h.lt, by simp, Program.stmt_addStmt_self .., h.new_not_mem _, hxb,
      hxp.trans h.parent.symm, ?_, ?_, fun l hl => ?_⟩ htail.clear htail.plain
    · rw [hxa, htemp]
      nofun
    · rw [hxa, hblocks]
      nofun
    · rw [hxa] at hl
      rw [hxp]
      exact (Program.Extends.addStmt (.refl s.block _) x).innermost (hjump l hl)
  have hm : Moves s { s with
      program := (s.program.addStmt x).place s.block s.program.stmts.size } :=
    ⟨((Program.Extends.refl s.block s.program).addStmt x).place (.inl rfl) _, .inl rfl, fun _ hx =>
      Program.isJoined_of_addStmt (by rw [hxa, hblocks]) hx rfl⟩
  have hnext := (s.program.addStmt x).block_place_of_eq (·.next) s.block s.block s.program.stmts.size
    fun _ _ => rfl
  have hplain : ((s.program.addStmt x).place s.block s.program.stmts.size).Plain s.block := by
    intro y hy
    rw [Program.block_place _ _ _ _ htail.lt, if_pos rfl] at hy
    rw [Program.stmt_place]
    rcases List.mem_append.mp hy with hy | hy
    · exact htail.plain y hy
    · rw [List.mem_singleton.mp hy, Program.stmt_addStmt_self, hxa]
      exact hblocks
  have hplaced : Placed strict names c { s with
      program := (s.program.addStmt x).place s.block s.program.stmts.size } :=
    ⟨hbuilt, Nat.lt_of_lt_of_le h.lt hm.program.blocks_le, (hm.program.func _ h.lt).trans h.func,
      (hm.program.parent _ h.lt).trans h.parent, hnext.trans h.next, hplain,
      fun f hf => hm.program.innermost (h.loop f hf), h.values, fun n hn => hm.program.assigned n (h.assigned n hn)⟩
  refine ⟨hplaced, hm, fun hends => ?_⟩
  refine h.extend hm hbuilt (htail.place h.lt ?_) rfl rfl
  rw [Program.stmt_addStmt_self, hxa]
  exact hends

/-- Emission of a statement that defines the next temp of its block. -/
theorem Ready.define (h : Ready strict names c s) {x : IR.Stmt} (hblock : x.block = s.block)
    (hparent : x.parent = c.parent)
    (htemp : x.action.temp? = some ⟨s.block, (s.program.block s.block).slots.size⟩)
    (hblocks : x.action.blocks = []) (hcopies : x.action.copies = []) (hjump : x.action.jump? = none)
    (hends : x.action.endsBlock = false)
    (hs : s' = { s with
      program := ((s.program.addStmt x).place s.block s.program.stmts.size).addSlot s.block
        s.program.stmts.size }) :
    Ready strict names c s' ∧ Moves s s' := by
  subst hs
  have hadd := h.toPlaced.addStmt x hparent hcopies (by simp [hblocks])
  have hslot := hadd.addSlot s.block s.program.stmts.size h.lt (by simp) (by
    rw [Program.stmt_addStmt_self]
    exact htemp)
  have hstmts := (s.program.addStmt x).block_addSlot_of_eq (·.stmts) s.block s.block
    s.program.stmts.size fun _ _ => rfl
  have htail := (h.tail.addStmt h.built x).reslot (.addSlot _ s.block s.program.stmts.size)
  have hself : ((s.program.addStmt x).addSlot s.block s.program.stmts.size).stmt s.program.stmts.size =
      x := by
    rw [Program.stmt_addSlot, Program.stmt_addStmt_self]
  rw [Program.addSlot_place]
  have hbuilt : (((s.program.addStmt x).addSlot s.block s.program.stmts.size).place s.block
      s.program.stmts.size).Built strict := by
    refine hslot.place (x := x) ⟨htail.lt, by simp, hself, ?_, hblock, hparent.trans htail.parent.symm, fun t ht => ?_,
      ?_, ?_⟩ htail.clear htail.plain
    · rw [hstmts]
      exact h.new_not_mem _
    · rw [htemp] at ht
      cases ht
      rw [(s.program.addStmt x).definition?_addSlot s.block _ _ h.lt]
      exact if_pos rfl
    · rw [hblocks]
      nofun
    · rw [hjump]
      nofun
  have hm : Moves s { s with
      program := ((s.program.addStmt x).addSlot s.block s.program.stmts.size).place s.block
        s.program.stmts.size } :=
    ⟨(((Program.Extends.refl s.block s.program).addStmt x).addSlot h.lt _).place (.inl rfl) _, .inl rfl, fun _ hx =>
      Program.isJoined_of_addStmt hblocks hx rfl⟩
  refine ⟨h.extend hm hbuilt (htail.place htail.lt ?_) rfl rfl, hm⟩
  rw [hself]
  exact hends

/-- Defining a temp. -/
theorem Ready.temp (h : Ready strict names c s) {v : Value} {pos : Position} {x : Operand}
    (hv : ∀ cs, v ≠ .merge cs) (he : temp c v pos names s = .ok (x, s')) :
    Ready strict names c s' ∧ Moves s s' := by
  rw [temp_apply] at he
  cases he
  refine h.define rfl rfl rfl rfl ?_ rfl rfl rfl
  cases v with
  | merge cs => exact (hv cs rfl).elim
  | _ => rfl

/-- Emission of a branch or a loop together with the blocks that it owns. -/
theorem Ready.own (h : Ready strict names c s) {x : IR.Stmt} (k : Nat) (hblock : x.block = s.block)
    (hparent : x.parent = c.parent) (htemp : x.action.temp? = none) (hcopies : x.action.copies = [])
    (hjump : x.action.jump? = none) (hblocks : x.action.blocks ≠ []) (hdistinct : x.action.blocks.Nodup)
    (hnew : ∀ b, b ∈ x.action.blocks → s.program.blocks.size ≤ b ∧ b < s.program.blocks.size + k) :
    Program.Owned strict False s.program s.block s.program.stmts.size
      (((s.program.addStmt x).place s.block s.program.stmts.size).addBlocks c.func
        (some s.program.stmts.size) k) ∧
    ((((s.program.addStmt x).place s.block s.program.stmts.size).addBlocks c.func
      (some s.program.stmts.size) k).block s.block).next = none := by
  rw [(s.program.addStmt x).addBlocks_place _ _ _ _ _ h.lt]
  generalize hr : (s.program.addStmt x).addBlocks c.func (some s.program.stmts.size) k = r
  have hadd := h.toPlaced.addStmt x hparent hcopies hdistinct
  have hstmt : r.stmt = (s.program.addStmt x).stmt := by rw [← hr, Program.stmt_addBlocks]
  have hstmts : r.stmts = (s.program.addStmt x).stmts := by rw [← hr, Program.stmts_addBlocks]
  have hself : r.stmt s.program.stmts.size = x := by rw [hstmt, Program.stmt_addStmt_self]
  have htail : Program.Tail strict r c.func c.parent s.block :=
    hr ▸ (h.tail.addStmt h.built x).addBlocks _ _ k
  have hold : r.block s.block = s.program.block s.block := by
    rw [← hr, (s.program.addStmt x).block_addBlocks_of_lt _ _ _ _ h.lt]
    rfl
  have howner : (s.program.addStmt x).IsOwner s.program.stmts.size :=
    ⟨by simp, by rw [Program.stmt_addStmt_self]; exact hblocks, by
      rw [Program.stmt_addStmt_self, hblock]
      exact h.lt⟩
  have hbuilt : (r.place s.block s.program.stmts.size).Built strict := by
    have hrb : r.Built strict := by
      rw [← hr]
      refine hadd.addBlocks _ _ k fun y hy => ?_
      cases hy
      refine ⟨howner, ?_⟩
      rw [Program.stmt_addStmt_self, hblock]
      exact h.func
    refine hrb.place (x := x) ⟨htail.lt, by simp [hstmts], hself, ?_, hblock, hparent.trans htail.parent.symm, ?_,
      fun b hb => ?_, ?_⟩ htail.clear htail.plain
    · rw [hold]
      exact h.new_not_mem _
    · rw [htemp]
      nofun
    · obtain ⟨h1, h2⟩ := hnew b hb
      rw [← hr, (s.program.addStmt x).block_addBlocks_of_ge _ _ _ _ h1 h2]
      exact ⟨rfl, rfl⟩
    · rw [hjump]
      nofun
  refine ⟨⟨hbuilt, ?_, h.lt, Nat.le_refl _, ?_, ?_, ?_, ?_, fun y hy hn => ?_⟩, ?_⟩
  · rw [← hr]
    exact (((Program.Extends.refl s.block s.program).addStmt x).addBlocks _ _ k).place (.inl rfl) _
  · refine ⟨by simp [hstmts], by rw [Program.stmt_place, hself]; exact hblocks, ?_⟩
    rw [Program.stmt_place, hself, hblock, Program.blocks_size_place]
    exact htail.lt
  · rw [Program.stmt_place, hself, hblock]
  · rw [Program.stmt_place, hself, hparent]
    exact h.parent.symm
  · rw [r.block_place _ _ _ htail.lt, if_pos rfl, hold]
    exact ⟨_, rfl⟩
  · refine Program.isJoined_of_ge ?_
    rw [Program.stmts_place, hstmts]
    rw [Program.stmts_size_addStmt]
    exact Nat.lt_of_le_of_ne hy (Ne.symm (hn.resolve_right id))
  · rw [r.block_place_of_eq (·.next) _ _ _ fun _ _ => rfl]
    exact htail.next

/-- Copying a value into a merging temp at the cursor. -/
theorem Ready.copy (h : Ready strict names c s) {m : TempId} {v : Option Operand} {pos : Position}
    {x : StmtId} (h1 : copyInto m v s.block c.parent pos names s = .ok (x, t))
    (h2 : append s.block x names t = .ok ((), s')) : Ready strict names c s' ∧ Moves s s' := by
  obtain ⟨rfl, d, u, k, cs, tracking, hd, ha, rfl⟩ := copyInto_ok h1
  rw [append_apply] at h2
  cases h2
  obtain ⟨hlt, htemp⟩ := h.built.definition m d hd
  have hu : u = m := by
    rw [ha] at htemp
    exact Option.some.inj htemp
  generalize hy : ({ action := .copy m v, block := s.block, parent := c.parent, pos } : IR.Stmt) = y
  have hself : (s.program.addCopy d m cs y).stmt s.program.stmts.size = y := by
    rw [s.program.stmt_addCopy d m cs y _ hlt, if_pos rfl]
  have hcopy := h.tail.addCopy (y := y) (t := m) h.built hlt ha
  have hplace : ((s.program.addCopy d m cs y).place s.block s.program.stmts.size).Built strict := by
    subst hy
    refine Program.Built.place ?_ ⟨h.lt, by simp, hself, h.new_not_mem _, rfl, h.parent.symm, nofun, nofun, nofun⟩
      hcopy.clear hcopy.plain
    exact h.built.addCopy hd ha (fun q hq => (h.built.blockOwner s.block q (h.parent.trans hq)).1) rfl rfl rfl
  have hm : Moves s { s with
      program := (s.program.addCopy d m cs y).place s.block s.program.stmts.size, tracking } :=
    ⟨((Program.Extends.refl s.block s.program).addCopy hlt ha hu).place (.inl rfl) _, .inl rfl, fun _ hx =>
      Program.isJoined_of_addCopy (x := y) (by rw [← hy]; rfl) hx hlt rfl⟩
  refine ⟨h.extend hm hplace (hcopy.place h.lt ?_) rfl rfl, hm⟩
  rw [hself, ← hy]
  rfl

/-- Of a site only the function and what is around the code matter. -/
theorem Placed.of_site {d : Site} (h : Placed strict names c s) (hf : d.func = c.func)
    (hp : d.parent = c.parent) (hl : d.loop = c.loop) : Placed strict names d s :=
  { h with
    func := h.func.trans hf.symm
    parent := h.parent.trans hp.symm
    loop := fun f hd => hp ▸ h.loop f (hl ▸ hd) }

theorem Ready.of_site {d : Site} (h : Ready strict names c s) (hf : d.func = c.func)
    (hp : d.parent = c.parent) (hl : d.loop = c.loop) : Ready strict names d s :=
  ⟨h.toPlaced.of_site hf hp hl, h.running, h.clear⟩

theorem Passed.of_site {d : Site} (h : Passed strict names c s) (hf : d.func = c.func)
    (hp : d.parent = c.parent) (hl : d.loop = c.loop) : Passed strict names d s :=
  ⟨h.toPlaced.of_site hf hp hl, h.clear⟩

end ScriptOptimizer.Lowering
