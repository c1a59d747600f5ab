import ScriptOptimizer.IR.Traversal

/-!
# Reading a changed program

What the blocks, statements and temps of a program are after one of them was changed or a new one was
added. Numbers out of range read as the default, and changing them does nothing.
-/

namespace ScriptOptimizer.IR

instance : Std.TransOrd TempId :=
  inferInstanceAs (Std.TransCmp (compareLex (compareOn TempId.block) (compareOn TempId.slot)))

instance : Std.LawfulEqOrd TempId where
  eq_of_compare {a b} h := by
    obtain ⟨hb, hs⟩ := Ordering.then_eq_eq.mp h
    cases a
    cases b
    rw [TempId.mk.injEq]
    exact ⟨Std.LawfulEqOrd.eq_of_compare hb, Std.LawfulEqOrd.eq_of_compare hs⟩

/-- Whether an operand gives something new each time it is evaluated. -/
def Operand.isFresh : Operand → Bool
  | closure _ | raw _ => true
  | _ => false

/-- The operands that a known shape of an object holds. -/
def Generation.operands (g : Generation) : List Operand := g.props.map (·.2) ++ g.elems

/-- The operands that the known shapes of an object hold. -/
def Shape.operands (s : Shape) : List Operand := s.generations.flatMap Generation.operands

namespace Program

variable (p : Program)

/-! ## Changed blocks -/

variable {b : BlockId}

/-- Changing a block keeps the number of blocks. -/
@[simp] theorem blocks_size_modifyBlock (b : BlockId) (f : Block → Block) :
    (p.modifyBlock b f).blocks.size = p.blocks.size := by
  simp [modifyBlock]

/-- The blocks behind a change of one. -/
theorem block_modifyBlock (b c : BlockId) (f : Block → Block) :
    (p.modifyBlock b f).block c =
      if c = b ∧ b < p.blocks.size then f (p.block c) else p.block c := by
  simp only [block, modifyBlock, Array.getD_eq_getD_getElem?, Array.getElem?_modify]
  by_cases hc : c = b
  · subst c
    by_cases hb : b < p.blocks.size <;> simp [hb]
  · simp [hc, Ne.symm hc]

/-- The changed block itself. -/
theorem block_modifyBlock_self (b : BlockId) (f : Block → Block) (hb : b < p.blocks.size) :
    (p.modifyBlock b f).block b = f (p.block b) := by
  simp [block_modifyBlock, hb]

/-- The other blocks stay as they are. -/
theorem block_modifyBlock_of_ne (b c : BlockId) (f : Block → Block) (hc : c ≠ b) :
    (p.modifyBlock b f).block c = p.block c := by
  simp [block_modifyBlock, hc]

/-- A part of all blocks that the change keeps in the one is kept in all. -/
theorem block_modifyBlock_of_eq {α : Type} (g : Block → α) (b c : BlockId) (f : Block → Block)
    (h : ∀ x, g (f x) = g x) : g ((p.modifyBlock b f).block c) = g (p.block c) := by
  rw [block_modifyBlock]
  split
  · exact h _
  · rfl

/-- Only what a change does to the block matters. -/
theorem modifyBlock_congr {f g : Block → Block} (h : f (p.block b) = g (p.block b)) :
    p.modifyBlock b f = p.modifyBlock b g := by
  simp only [modifyBlock, Program.mk.injEq, and_true]
  refine Array.ext_getElem? fun i => ?_
  rw [Array.getElem?_modify, Array.getElem?_modify]
  split
  · next hi =>
    subst hi
    cases hx : p.blocks[b]? with
    | none => rfl
    | some x =>
      have hb : p.block b = x := by simp [block, hx]
      rw [hb] at h
      simp [h]
  · rfl

/-- Two changes of a block are one. -/
theorem modifyBlock_modifyBlock (b : BlockId) (f g : Block → Block) :
    (p.modifyBlock b f).modifyBlock b g = p.modifyBlock b (g ∘ f) := by
  simp only [modifyBlock, Program.mk.injEq, and_true]
  refine Array.ext_getElem? fun i => ?_
  simp only [Array.getElem?_modify]
  split
  · simp
  · rfl

/-- A block out of range is the default. -/
theorem block_of_ge (b : BlockId) (hb : p.blocks.size ≤ b) : p.block b = default := by
  simp [block, hb]

/-- A block that holds a statement is in range. -/
theorem lt_of_mem_stmts {s : StmtId} (h : s ∈ (p.block b).stmts) : b < p.blocks.size := by
  apply Nat.lt_of_not_le
  intro hb
  rw [block_of_ge p b hb] at h
  exact List.not_mem_nil h

/-- A block that continues in another is in range. -/
theorem lt_of_next {c : BlockId} (h : (p.block b).next = some c) : b < p.blocks.size := by
  apply Nat.lt_of_not_le
  intro hb
  rw [block_of_ge p b hb] at h
  cases h

/-- A block that continues another is in range. -/
theorem lt_of_prev {c : BlockId} (h : (p.block c).prev = some b) : c < p.blocks.size := by
  apply Nat.lt_of_not_le
  intro hb
  rw [block_of_ge p c hb] at h
  cases h

/-- A block that a statement owns is in range. -/
theorem lt_of_parent {s : StmtId} (h : (p.block b).parent = some s) : b < p.blocks.size := by
  apply Nat.lt_of_not_le
  intro hb
  rw [block_of_ge p b hb] at h
  cases h

/-! ## Changed statements -/

/-- Changing a statement keeps the number of statements. -/
@[simp] theorem stmts_size_modifyStmt (s : StmtId) (f : Stmt → Stmt) :
    (p.modifyStmt s f).stmts.size = p.stmts.size := by
  simp [modifyStmt]

/-- Changing a statement keeps each block. -/
@[simp] theorem block_modifyStmt (s : StmtId) (f : Stmt → Stmt) :
    (p.modifyStmt s f).block = p.block := rfl

/-- Changing a statement keeps the definitions of temps. -/
@[simp] theorem definition?_modifyStmt (s : StmtId) (f : Stmt → Stmt) :
    (p.modifyStmt s f).definition? = p.definition? := rfl

/-- The statements behind a change of one. -/
theorem stmt_modifyStmt (s t : StmtId) (f : Stmt → Stmt) :
    (p.modifyStmt s f).stmt t = if t = s ∧ s < p.stmts.size then f (p.stmt t) else p.stmt t := by
  simp only [stmt, modifyStmt, Array.getD_eq_getD_getElem?, Array.getElem?_modify]
  by_cases ht : t = s
  · subst t
    by_cases hs : s < p.stmts.size <;> simp [hs]
  · simp [ht, Ne.symm ht]

/-- The changed statement itself. -/
theorem stmt_modifyStmt_self (s : StmtId) (f : Stmt → Stmt) (hs : s < p.stmts.size) :
    (p.modifyStmt s f).stmt s = f (p.stmt s) := by
  simp [stmt_modifyStmt, hs]

/-- The other statements stay as they are. -/
theorem stmt_modifyStmt_of_ne (s t : StmtId) (f : Stmt → Stmt) (ht : t ≠ s) :
    (p.modifyStmt s f).stmt t = p.stmt t := by
  simp [stmt_modifyStmt, ht]

/-- A part of all statements that the change keeps in the one is kept in all. -/
theorem stmt_modifyStmt_of_eq {α : Type} (g : Stmt → α) (s t : StmtId) (f : Stmt → Stmt)
    (h : ∀ x, g (f x) = g x) : g ((p.modifyStmt s f).stmt t) = g (p.stmt t) := by
  rw [stmt_modifyStmt]
  split
  · exact h _
  · rfl

/-- A statement out of range is the default. -/
theorem stmt_of_ge (s : StmtId) (hs : p.stmts.size ≤ s) : p.stmt s = default := by
  simp [stmt, hs]

/-! ## Changed temps -/

/-- The definition of a temp in terms of the slots of its block. -/
theorem definition?_eq (t : TempId) :
    p.definition? t = ((p.block t.block).slots[t.slot]?).bind (·.definition) := rfl

/-- A change of a block that keeps its slots keeps the definitions of temps. -/
theorem definition?_modifyBlock (b : BlockId) (f : Block → Block) (h : ∀ x, (f x).slots = x.slots) :
    (p.modifyBlock b f).definition? = p.definition? := by
  funext t
  rw [definition?_eq, definition?_eq, p.block_modifyBlock_of_eq (·.slots) b t.block f h]

/-- A change of a slot keeps everything of a block but its slots. -/
theorem block_modifySlot_of_eq {α : Type} (g : Block → α) (t : TempId) (c : BlockId)
    (f : Slot → Slot) (h : ∀ x slots, g { x with slots } = g x) :
    g ((p.modifySlot t f).block c) = g (p.block c) :=
  p.block_modifyBlock_of_eq g t.block c _ fun x => h x _

/-- The slots behind a change of one. -/
theorem slot?_modifySlot (t u : TempId) (f : Slot → Slot) :
    (p.modifySlot t f).slot? u = if u = t then (p.slot? u).map f else p.slot? u := by
  simp only [slot?, modifySlot, block_modifyBlock]
  by_cases hb : u.block = t.block ∧ t.block < p.blocks.size
  · simp only [hb, and_self, if_true]
    by_cases hu : u = t
    · subst u
      simp [Array.getElem?_modify]
    · have hs : t.slot ≠ u.slot := by
        intro hs
        apply hu
        cases t; cases u
        simp_all
      simp [hu, hs, Array.getElem?_modify]
  · simp only [hb, if_false]
    split
    · next hu =>
      subst u
      have hge : p.blocks.size ≤ t.block := Nat.le_of_not_lt fun hlt => hb ⟨rfl, hlt⟩
      rw [block_of_ge p t.block hge]
      rfl
    · rfl

/-- A change of a slot that keeps its definition keeps all definitions. -/
theorem definition?_modifySlot (t : TempId) (f : Slot → Slot)
    (h : ∀ x, (f x).definition = x.definition) :
    (p.modifySlot t f).definition? = p.definition? := by
  funext u
  simp only [definition?, slot?_modifySlot]
  split
  · cases p.slot? u <;> simp [h]
  · rfl

/-- Forgetting a definition forgets that one only. -/
theorem definition?_dropDefinition (t u : TempId) :
    (p.dropDefinition t).definition? u = if u = t then none else p.definition? u := by
  simp only [definition?, dropDefinition, slot?_modifySlot]
  split
  · cases p.slot? u <;> rfl
  · rfl

end Program

end ScriptOptimizer.IR
