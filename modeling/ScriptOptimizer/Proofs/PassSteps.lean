import ScriptOptimizer.IR.Uses
import ScriptOptimizer.Proofs.Structure

/-!
# Small steps of the optimizer

The changes of single blocks and statements that the passes are made of, and what visits of a whole
program keep.
-/

namespace ScriptOptimizer.IR

/-! ## Replaced operands -/

namespace Action

variable (g : Operand → Operand) (a : Action)

@[simp] theorem blocks_mapOperands : (a.mapOperands g).blocks = a.blocks := by
  cases a with
  | loop l =>
    obtain ⟨head, body, rounds⟩ := l
    cases head with
    | tested behind => cases behind <;> rfl
    | iterated => rfl
  | _ => rfl

@[simp] theorem endsBlock_mapOperands : (a.mapOperands g).endsBlock = a.endsBlock := by cases a <;> rfl

@[simp] theorem isLoop_mapOperands : (a.mapOperands g).isLoop = a.isLoop := by cases a <;> rfl

@[simp] theorem jump?_mapOperands : (a.mapOperands g).jump? = a.jump? := by cases a <;> rfl

@[simp] theorem temp?_mapOperands : (a.mapOperands g).temp? = a.temp? := by cases a <;> rfl

@[simp] theorem copies_mapOperands : (a.mapOperands g).copies = a.copies := by
  cases a with
  | define t v m => cases v <;> rfl
  | _ => rfl

/-- Where a temp is placed does not matter for what it merges. -/
theorem copies_define (t : TempId) (v : Value) (m n : Placement) :
    (define t v m).copies = (define t v n).copies := by
  cases v <;> rfl

end Action

/-- A statement that may stand in the place of another if nobody reads what it defines. -/
structure Stmt.Similar (x y : Stmt) : Prop where
  block : y.block = x.block
  parent : y.parent = x.parent
  blocks : y.action.blocks = x.action.blocks
  endsBlock : y.action.endsBlock = x.action.endsBlock
  isLoop : y.action.isLoop = x.action.isLoop
  jump : y.action.jump? = x.action.jump?
  copies : y.action.copies ⊆ x.action.copies

/-- A statement that may stand in the place of another. -/
structure Stmt.Alike (x y : Stmt) : Prop extends Similar x y where
  temp : y.action.temp? = x.action.temp?

namespace Stmt.Alike

variable {x y : Stmt}

/-- Statements that do the same with other operands are alike. -/
theorem mapOperands (g : Operand → Operand) (ha : y.action = x.action.mapOperands g)
    (hb : y.block = x.block) (hp : y.parent = x.parent) : x.Alike y := by
  refine ⟨⟨hb, hp, ?_, ?_, ?_, ?_, ?_⟩, ?_⟩ <;> simp [ha]

/-- Statements that do the same are alike. -/
theorem of_action (ha : y.action = x.action) (hb : y.block = x.block) (hp : y.parent = x.parent) :
    x.Alike y := by
  refine ⟨⟨hb, hp, ?_, ?_, ?_, ?_, ?_⟩, ?_⟩ <;> simp [ha]

/-- A temp may get another value that merges no further copies. -/
theorem define {t : TempId} {v w : Value} {m n : Placement} (hx : x.action = .define t v m)
    (hy : y.action = .define t w n) (hc : y.action.copies ⊆ x.action.copies)
    (hb : y.block = x.block) (hp : y.parent = x.parent) : x.Alike y := by
  refine ⟨⟨hb, hp, ?_, ?_, ?_, ?_, hc⟩, ?_⟩ <;> rw [hx, hy] <;> rfl

end Stmt.Alike

/-- A block that may stand in the place of another. -/
structure Block.Alike (x y : Block) : Prop where
  func : y.func = x.func
  next : y.next = x.next
  prev : y.prev = x.prev
  parent : y.parent = x.parent
  stmts : y.stmts = x.stmts
  slots : y.slots = x.slots
  dead : x.dead = true → y.dead = true

namespace Program

variable {p q : Program} {s : StmtId} {b : BlockId} {t : TempId}

/-! ## Single changes -/

variable {f : Stmt → Stmt}

/-- Changes a statement to a similar one. -/
theorem Alters.modifyStmt_of_similar (h : (p.stmt s).Similar (f (p.stmt s)))
    (ht : ∀ t, (f (p.stmt s)).action.temp? = some t → (p.stmt s).action.temp? = some t)
    (hd : ∀ t, p.definition? t = some s → (p.stmt s).action.temp? = some t →
      (f (p.stmt s)).action.temp? = some t) :
    p.Alters (p.modifyStmt s f) := by
  have hread : ∀ x, (p.stmt x).Similar ((p.modifyStmt s f).stmt x) := by
    intro x
    rw [stmt_modifyStmt]
    split
    · next hx => exact hx.1 ▸ h
    · exact (Stmt.Alike.of_action rfl rfl rfl).toSimilar
  exact {
    blocks_size := rfl
    stmts_size := p.stmts_size_modifyStmt s f
    functions := rfl
    globals := rfl
    reserved := rfl
    func _ := rfl
    next _ := rfl
    prev _ := rfl
    owner _ := rfl
    dead _ h := h
    home x := (hread x).block
    parent x := (hread x).parent
    blocks x := (hread x).blocks
    endsBlock x := (hread x).endsBlock
    isLoop x := (hread x).isLoop
    jump x := (hread x).jump
    temp x t hx := by
      rw [stmt_modifyStmt] at hx
      split at hx
      · next hxs =>
        obtain ⟨rfl, -⟩ := hxs
        exact ht t hx
      · exact hx
    copies x := (hread x).copies
    stmts _ _ h := h
    nodup _ h := h
    last _ _ _ _ h := h
    definition t x hx := by
      refine ⟨hx, fun hxt => ?_⟩
      rw [stmt_modifyStmt]
      split
      · next hxs =>
        obtain ⟨rfl, -⟩ := hxs
        exact hd t hx hxt
      · exact hxt }

/-- Changes a statement to one that is alike. -/
theorem Alters.modifyStmt (h : (p.stmt s).Alike (f (p.stmt s))) : p.Alters (p.modifyStmt s f) :=
  .modifyStmt_of_similar h.toSimilar (fun _ ht => h.temp ▸ ht) fun _ _ ht => h.temp.trans ht

/-- Changes a statement; a definition that was dropped stays so. -/
theorem Reshapes.modifyStmt {f : Stmt → Stmt} (h : (p.stmt s).Alike (f (p.stmt s)))
    (ht : ∀ t, (p.stmt s).action.temp? = some t → p.Tied s t →
      p.definition? t = some s ∨ (f (p.stmt s)).live = false ∧ (f (p.stmt s)).effects = []) :
    p.Reshapes (p.modifyStmt s f) := by
  refine ⟨.modifyStmt h, fun b x t hx hxt hp => ?_⟩
  have hxt' := (Alters.modifyStmt h).temp x t hxt
  unfold Tied
  rw [stmt_modifyStmt, definition?_modifyStmt]
  split
  · next hs =>
    obtain ⟨rfl, -⟩ := hs
    exact ht t hxt' hp
  · exact hp

/-- Changes a statement to one that is no more alive. -/
theorem Reshapes.modifyStmt_of_imp (h : (p.stmt s).Alike (f (p.stmt s)))
    (hl : (p.stmt s).live = false → (f (p.stmt s)).live = false)
    (he : (p.stmt s).effects = [] → (f (p.stmt s)).effects = []) : p.Reshapes (p.modifyStmt s f) :=
  .modifyStmt h fun _ _ htied => htied.imp_right fun hd => ⟨hl hd.1, he hd.2⟩

/-- A live definition is found under its temp. -/
theorem Tied.definition (h : p.Tied s t) (hl : (p.stmt s).live = true) : p.definition? t = some s := by
  rcases h with h | ⟨hd, -⟩
  · exact h
  · rw [hl] at hd
    cases hd

/-- Changes a live statement. -/
theorem Reshapes.modifyStmt_of_live (h : (p.stmt s).Alike (f (p.stmt s))) (hl : (p.stmt s).live = true) :
    p.Reshapes (p.modifyStmt s f) :=
  .modifyStmt h fun _ _ htied => .inl (htied.definition hl)

/-- Changes a block to one that is alike. -/
theorem Reshapes.modifyBlock {f : Block → Block} (h : ∀ x : Block, x.Alike (f x)) :
    p.Reshapes (p.modifyBlock b f) := by
  have hdefinition := p.definition?_modifyBlock b f fun x => (h x).slots
  have hstmts : ∀ c, ((p.modifyBlock b f).block c).stmts = (p.block c).stmts := fun c =>
    p.block_modifyBlock_of_eq (·.stmts) b c f fun x => (h x).stmts
  exact {
    blocks_size := p.blocks_size_modifyBlock b f
    stmts_size := rfl
    functions := rfl
    globals := rfl
    reserved := rfl
    func c := p.block_modifyBlock_of_eq (·.func) b c f fun x => (h x).func
    next c := p.block_modifyBlock_of_eq (·.next) b c f fun x => (h x).next
    prev c := p.block_modifyBlock_of_eq (·.prev) b c f fun x => (h x).prev
    owner c := p.block_modifyBlock_of_eq (·.parent) b c f fun x => (h x).parent
    dead c hc := by
      rw [block_modifyBlock]
      split
      · exact (h _).dead hc
      · exact hc
    home _ := rfl
    parent _ := rfl
    blocks _ := rfl
    endsBlock _ := rfl
    isLoop _ := rfl
    jump _ := rfl
    temp _ _ h := h
    copies _ := List.Subset.refl _
    stmts c := by
      rw [hstmts]
      exact List.Subset.refl _
    nodup c hc := by
      rw [hstmts]
      exact hc
    last c x hx he hl := by
      rw [hstmts]
      exact hl
    definition u x hd := ⟨hdefinition ▸ hd, id⟩
    tied _ x u _ _ htied := by
      unfold Tied
      rw [hdefinition]
      exact htied }

/-- Forgets the definition of a temp. -/
theorem Alters.dropDefinition (p : Program) (t : TempId) : p.Alters (p.dropDefinition t) := by
  have hblock : ∀ {α : Type} (g : Block → α) (c : BlockId), (∀ x slots, g { x with slots } = g x) →
      g ((p.dropDefinition t).block c) = g (p.block c) :=
    fun g c h => p.block_modifySlot_of_eq g t c _ h
  have hstmts : ∀ c, ((p.dropDefinition t).block c).stmts = (p.block c).stmts :=
    fun c => hblock (·.stmts) c fun _ _ => rfl
  exact {
    blocks_size := p.blocks_size_modifyBlock _ _
    stmts_size := rfl
    functions := rfl
    globals := rfl
    reserved := rfl
    func c := hblock (·.func) c fun _ _ => rfl
    next c := hblock (·.next) c fun _ _ => rfl
    prev c := hblock (·.prev) c fun _ _ => rfl
    owner c := hblock (·.parent) c fun _ _ => rfl
    dead c hc := (hblock (·.dead) c fun _ _ => rfl).trans hc
    home _ := rfl
    parent _ := rfl
    blocks _ := rfl
    endsBlock _ := rfl
    isLoop _ := rfl
    jump _ := rfl
    temp _ _ h := h
    copies _ := List.Subset.refl _
    stmts c := by
      rw [hstmts]
      exact List.Subset.refl _
    nodup c hc := by
      rw [hstmts]
      exact hc
    last c x hx he hl := by
      rw [hstmts]
      exact hl
    definition u x hd := by
      rw [definition?_dropDefinition] at hd
      split at hd
      · cases hd
      · exact ⟨hd, id⟩ }

/-- Another definition stays tied when one is forgotten. -/
theorem Tied.dropDefinition {u : TempId} (h : p.Tied s u)
    (ht : p.definition? t = some s → (p.stmt s).live = false ∧ (p.stmt s).effects = []) :
    (p.dropDefinition t).Tied s u := by
  unfold Tied
  rw [definition?_dropDefinition]
  split
  · next hu =>
    subst hu
    exact .inr (h.elim ht id)
  · exact h

/-- Forgets a definition that was dropped. -/
theorem Reshapes.dropDefinition
    (h : ∀ s, p.definition? t = some s → (p.stmt s).live = false ∧ (p.stmt s).effects = []) :
    p.Reshapes (p.dropDefinition t) :=
  ⟨.dropDefinition p t, fun _ s _ _ _ htied => htied.dropDefinition (h s)⟩

/-- Leaves out statements of a block or puts them in another order, all but the last. -/
theorem Alters.setStmts {list : List StmtId} (hsub : list ⊆ (p.block b).stmts)
    (hnodup : (p.block b).stmts.Nodup → list.Nodup)
    (hlast : ∀ s, s ∈ list → (p.stmt s).action.endsBlock = true →
      (p.block b).stmts.getLast? = some s → list.getLast? = some s) :
    p.Alters (p.modifyBlock b fun x => { x with stmts := list }) := by
  have hstmts : ∀ c, ((p.modifyBlock b fun x => { x with stmts := list }).block c).stmts =
      if c = b ∧ b < p.blocks.size then list else (p.block c).stmts := by
    intro c
    rw [block_modifyBlock]
    split <;> rfl
  exact {
    blocks_size := p.blocks_size_modifyBlock b _
    stmts_size := rfl
    functions := rfl
    globals := rfl
    reserved := rfl
    func c := p.block_modifyBlock_of_eq (·.func) b c _ fun _ => rfl
    next c := p.block_modifyBlock_of_eq (·.next) b c _ fun _ => rfl
    prev c := p.block_modifyBlock_of_eq (·.prev) b c _ fun _ => rfl
    owner c := p.block_modifyBlock_of_eq (·.parent) b c _ fun _ => rfl
    dead c hc := by
      rw [block_modifyBlock]
      split <;> exact hc
    home _ := rfl
    parent _ := rfl
    blocks _ := rfl
    endsBlock _ := rfl
    isLoop _ := rfl
    jump _ := rfl
    temp _ _ h := h
    copies _ := List.Subset.refl _
    stmts c := by
      rw [hstmts]
      split
      · next hc => exact hc.1 ▸ hsub
      · exact List.Subset.refl _
    nodup c := by
      rw [hstmts]
      split
      · next hc => exact hc.1 ▸ hnodup
      · exact id
    last c x := by
      rw [hstmts]
      split
      · next hc =>
        obtain ⟨rfl, -⟩ := hc
        exact hlast x
      · exact fun _ _ hl => hl
    definition u x hd := by
      rw [p.definition?_modifyBlock b _ (by intro; rfl)] at hd
      exact ⟨hd, id⟩ }

/-- Leaves out statements of a block or puts them in another order. -/
theorem Reshapes.setStmts {list : List StmtId}
    (h : p.Alters (p.modifyBlock b fun x => { x with stmts := list })) :
    p.Reshapes (p.modifyBlock b fun x => { x with stmts := list }) := by
  refine ⟨h, fun _ s t _ _ htied => ?_⟩
  unfold Tied
  rw [p.definition?_modifyBlock b _ (by intro; rfl)]
  exact htied

/-! ## Steps in a row -/

/-- A relation between programs that goes from step to step. -/
structure Chains (R : Program → Program → Prop) : Prop where
  refl : ∀ p, R p p
  trans : ∀ {p q r : Program}, R p q → R q r → R p r

namespace Chains

variable {R : Program → Program → Prop}

theorem foldl {α : Type} (hR : Chains R) {f : Program → α → Program} {xs : List α}
    (h : ∀ q x, x ∈ xs → R q (f q x)) : R p (xs.foldl f p) :=
  List.foldlRecOn xs f (hR.refl p) fun q hq x hx => hR.trans hq (h q x hx)

/-- Marking a chain as dead marks blocks and drops statements. -/
theorem markDead (hR : Chains R) (hdead : ∀ (p : Program) b, R p (p.modifyBlock b fun x => { x with dead := true }))
    (hdrop : ∀ (p : Program) s, R p (p.modifyStmt s fun x => { x with live := false })) (fuel : Nat)
    (b : Option BlockId) (p : Program) : R p (markDead fuel b p) := by
  induction fuel generalizing b p with
  | zero => exact hR.refl p
  | succ fuel ih =>
    cases b with
    | none => exact hR.refl p
    | some b =>
      refine hR.trans (hR.trans (hdead p b) (hR.foldl fun q s _ => ?_)) (ih _ _)
      exact hR.trans (hdrop q s) (hR.foldl fun r c _ => ih _ _)

/-- A chain of blocks visited by steps. -/
theorem visitChain (hR : Chains R) {v : Visitor} (hblock : ∀ b q, R q (v.block b q))
    (hstmt : ∀ s q, (q.stmt s).live = true → R q (v.stmt s q)) (fuel : Nat) (b : Option BlockId) (p : Program) :
    R p (visitChain v fuel b p) := by
  induction fuel generalizing b p with
  | zero => exact hR.refl p
  | succ fuel ih =>
    cases b with
    | none => exact hR.refl p
    | some b =>
      unfold Program.visitChain
      split
      · exact hR.refl p
      · refine hR.trans (hR.trans (hblock b p) (hR.foldl fun q s _ => ?_)) (ih _ _)
        split
        · next hl => exact hR.trans (hstmt s q hl) (hR.foldl fun r c _ => ih _ _)
        · exact hR.refl q

/-- A program visited by steps. -/
theorem visit (hR : Chains R) {v : Visitor} (hblock : ∀ b q, R q (v.block b q))
    (hstmt : ∀ s q, (q.stmt s).live = true → R q (v.stmt s q)) : R p (p.visit v) :=
  hR.foldl fun _ _ _ => hR.visitChain hblock hstmt _ _ _

end Chains

/-- Steps that keep the rules chain. -/
theorem Reshapes.chains : Chains fun p q => p.Coherent → p.Reshapes q where
  refl p _ := .refl p
  trans h k hp := (h hp).trans (k (hp.of_reshapes (h hp)))

/-- A program visited by steps. -/
theorem Reshapes.visit {v : Visitor}
    (hblock : ∀ b (q : Program), q.Coherent → q.Reshapes (v.block b q))
    (hstmt : ∀ s (q : Program), q.Coherent → (q.stmt s).live = true → q.Reshapes (v.stmt s q))
    (hp : p.Coherent) : p.Reshapes (p.visit v) :=
  Reshapes.chains.visit hblock (fun s q hl hq => hstmt s q hq hl) hp

/-! ## Dead blocks -/

/-- What marking changes: neither where statements stand nor what is found under temps. -/
structure Marks (p q : Program) : Prop where
  reshapes : p.Reshapes q
  stmts : ∀ b, (q.block b).stmts = (p.block b).stmts
  tied : ∀ s t, p.Tied s t → q.Tied s t

namespace Marks

theorem chains : Chains Marks where
  refl p := ⟨.refl p, fun _ => rfl, fun _ _ h => h⟩
  trans h k := ⟨h.reshapes.trans k.reshapes, fun b => (k.stmts b).trans (h.stmts b),
    fun s t ht => k.tied s t (h.tied s t ht)⟩

theorem setDead (p : Program) (b : BlockId) :
    p.Marks (p.modifyBlock b fun x => { x with dead := true }) := by
  refine ⟨.modifyBlock fun x => ⟨rfl, rfl, rfl, rfl, rfl, rfl, fun _ => rfl⟩,
    fun c => p.block_modifyBlock_of_eq (·.stmts) b c _ fun _ => rfl, fun s t ht => ?_⟩
  unfold Tied
  rw [p.definition?_modifyBlock b _ (by intro; rfl)]
  exact ht

theorem setDropped (p : Program) (s : StmtId) :
    p.Marks (p.modifyStmt s fun x => { x with live := false }) := by
  refine ⟨.modifyStmt_of_imp (.of_action rfl rfl rfl) (fun _ => rfl) id, fun _ => rfl, fun x t ht => ?_⟩
  refine ht.imp_right fun hd => ?_
  rw [stmt_modifyStmt]
  split
  · exact ⟨rfl, hd.2⟩
  · exact hd

/-- Marks what a block starts as dead. -/
theorem kill (p : Program) (b : BlockId) : p.Marks (p.kill b) := chains.markDead setDead setDropped _ _ _

end Marks

/-! ## Visits -/

/-- A visit goes from a block to the one that continues it and to those that its statements own. -/
def PassesTo (p : Program) (b c : BlockId) : Prop :=
  (p.block b).next = some c ∨ ∃ s ∈ (p.block b).stmts, c ∈ (p.stmt s).action.blocks

/-- The blocks that a visit meets, which leaves out dead ones and all that is met behind them only. -/
inductive Active (p : Program) : BlockId → Prop
  | first {f : FuncId} {b : BlockId} (hf : f < p.functions.size) (hb : p.firstBlock? f = some b)
      (hd : (p.block b).dead = false) : Active p b
  | step {b c : BlockId} (hb : Active p b) (hc : p.PassesTo b c) (hd : (p.block c).dead = false) : Active p c

theorem active_of_mem_chainStmts {fuel : Nat} {b : Option BlockId}
    (hb : ∀ c, b = some c → (p.block c).dead = false → p.Active c) (h : s ∈ p.chainStmts fuel b) :
    ∃ c, p.Active c ∧ s ∈ (p.block c).stmts := by
  induction fuel generalizing b with
  | zero => cases h
  | succ fuel ih =>
    cases b with
    | none => cases h
    | some b =>
      unfold chainStmts at h
      dsimp only at h
      split at h
      · cases h
      · next hdead =>
        have hactive := hb b rfl (by simpa using hdead)
        rcases List.mem_append.mp h with h | h
        · obtain ⟨x, hx, hs⟩ := List.mem_flatMap.mp h
          rcases List.mem_cons.mp hs with rfl | hs
          · exact ⟨b, hactive, hx⟩
          · obtain ⟨c, hc, hs⟩ := List.mem_flatMap.mp hs
            exact ih (fun d hd => Option.some.inj hd ▸ .step hactive (.inr ⟨x, hx, hc⟩)) hs
        · exact ih (fun c hc => .step hactive (.inl hc)) h

/-- The statements that a visit meets stand in active blocks. -/
theorem active_of_mem_allStmts (h : s ∈ p.allStmts) : ∃ c, p.Active c ∧ s ∈ (p.block c).stmts := by
  obtain ⟨f, hf, h⟩ := List.mem_flatMap.mp h
  exact active_of_mem_chainStmts (fun c hc => .first (List.mem_range.mp hf) hc) h

end Program

end ScriptOptimizer.IR
