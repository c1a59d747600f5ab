import ScriptOptimizer.Proofs.LoweringSteps
import ScriptOptimizer.Proofs.Structure

/-!
# Programs under construction

`Built` is what holds of a program between the steps of lowering, and `Extends` what lowering from a
block on may add to a program. The flag `strict` says whether statements that end a block are followed
by nothing: a loop whose first clause leaves the function breaks that rule, and no other.
-/

namespace ScriptOptimizer.IR

variable {t u : TempId} {m : Placement} {cs : List StmtId} {s : StmtId}

/-- A statement as lowering may change it later: a merging temp gets further copies. -/
def Stmt.Grown (x y : Stmt) : Prop :=
  y = x ∨ ∃ t cs ds m n, x.action = .define t (.merge cs) m ∧ cs <+: ds ∧
    y = { x with action := .define t (.merge ds) n }

namespace Stmt.Grown

variable {x y z : Stmt}

theorem refl (x : Stmt) : x.Grown x := .inl rfl

theorem trans (h : x.Grown y) (k : y.Grown z) : x.Grown z := by
  rcases h with rfl | ⟨t, cs, ds, m, n, hx, hc, rfl⟩
  · exact k
  · rcases k with rfl | ⟨t', cs', ds', m', n', hy, hc', rfl⟩
    · exact .inr ⟨t, cs, ds, m, n, hx, hc, rfl⟩
    · cases hy
      exact .inr ⟨t, cs, ds', m, n', hx, hc.trans hc', rfl⟩

/-- Further copies change nothing that a statement is known by. -/
theorem eq_of {α : Type} (g : Stmt → α) (h : x.Grown y)
    (hg : ∀ t cs ds m n, x.action = .define t (.merge cs) m →
      g { x with action := .define t (.merge ds) n } = g x) : g y = g x := by
  rcases h with rfl | ⟨t, cs, ds, m, n, hx, -, rfl⟩
  · rfl
  · exact hg t cs ds m n hx

theorem block_eq (h : x.Grown y) : y.block = x.block := h.eq_of (·.block) fun _ _ _ _ _ _ => rfl

theorem parent_eq (h : x.Grown y) : y.parent = x.parent := h.eq_of (·.parent) fun _ _ _ _ _ _ => rfl

theorem blocks_eq (h : x.Grown y) : y.action.blocks = x.action.blocks :=
  h.eq_of (·.action.blocks) fun _ _ _ _ _ hx => by rw [hx]; rfl

theorem endsBlock_eq (h : x.Grown y) : y.action.endsBlock = x.action.endsBlock :=
  h.eq_of (·.action.endsBlock) fun _ _ _ _ _ hx => by rw [hx]; rfl

theorem isLoop_eq (h : x.Grown y) : y.action.isLoop = x.action.isLoop :=
  h.eq_of (·.action.isLoop) fun _ _ _ _ _ hx => by rw [hx]; rfl

end Stmt.Grown

namespace Program

/-- A statement that can own blocks. -/
structure IsOwner (p : Program) (s : StmtId) : Prop where
  lt : s < p.stmts.size
  blocks : (p.stmt s).action.blocks ≠ []
  home : (p.stmt s).block < p.blocks.size

/-- Control reaches the end of a block: no statement of it ends it. -/
def Open (p : Program) (b : BlockId) : Prop :=
  ∀ s, s ∈ (p.block b).stmts → (p.stmt s).action.endsBlock = false

/-- No statement of a block owns blocks. -/
def Plain (p : Program) (b : BlockId) : Prop :=
  ∀ s, s ∈ (p.block b).stmts → (p.stmt s).action.blocks = []

/-- If a statement owns blocks, the block in which it stands is continued in another one. -/
def IsJoined (p : Program) (s : StmtId) : Prop :=
  (p.stmt s).action.blocks ≠ [] → ∃ d < p.blocks.size, (p.block d).prev = some (p.stmt s).block

/-- What holds of a program between the steps of lowering. -/
structure Built (strict : Prop) (p : Program) : Prop where
  home : ∀ b s, s ∈ (p.block b).stmts → s < p.stmts.size ∧ (p.stmt s).block = b
  parent : ∀ b s, s ∈ (p.block b).stmts → (p.stmt s).parent = (p.block b).parent
  nodup : ∀ b, (p.block b).stmts.Nodup
  tied : ∀ b s t, s ∈ (p.block b).stmts → (p.stmt s).action.temp? = some t → p.definition? t = some s
  definition : ∀ t s, p.definition? t = some s →
    s < p.stmts.size ∧ (p.stmt s).action.temp? = some t
  stmtOwner : ∀ s q, (p.stmt s).parent = some q → p.IsOwner q
  blockOwner : ∀ b q, (p.block b).parent = some q → p.IsOwner q ∧ (p.stmt q).block < b
  copies : ∀ d c, c ∈ (p.stmt d).action.copies → c < p.stmts.size ∧ (p.stmt c).action.temp? = none
  next : ∀ b c, (p.block b).next = some c → b < c ∧ c < p.blocks.size ∧
    (p.block c).prev = some b ∧ (p.block c).parent = (p.block b).parent
  prev : ∀ b c, (p.block c).prev = some b → (p.block b).next = some c
  owned : ∀ b s h, s ∈ (p.block b).stmts → h ∈ (p.stmt s).action.blocks →
    (p.block h).parent = some s ∧ (p.block h).prev = none
  jump : ∀ b s l, s ∈ (p.block b).stmts → (p.stmt s).action.jump? = some l →
    p.Innermost (p.stmt s).parent l
  ends : strict → p.EndsLast
  owners : p.OwnersLast
  distinct : ∀ s, (p.stmt s).action.blocks.Nodup
  listed : ∀ f, f < p.functions.size →
    (p.function f).blocks = (List.range p.blocks.size).filter fun b => (p.block b).func == f
  nextFunc : ∀ b c, (p.block b).next = some c → (p.block c).func = (p.block b).func
  ownerFunc : ∀ b q, (p.block b).parent = some q → (p.block (p.stmt q).block).func = (p.block b).func

/-- Whether every temp keeps its definition. -/
def KeepsDefinitions (p q : Program) : Prop := ∀ t s, p.definition? t = some s → q.definition? t = some s

theorem KeepsDefinitions.of_eq {p q : Program} (h : q.definition? = p.definition?) : p.KeepsDefinitions q :=
  fun _ _ => h ▸ id

/-- What lowering from a block on may add to a program. -/
structure Extends (b : BlockId) (p q : Program) : Prop where
  blocks_le : p.blocks.size ≤ q.blocks.size
  stmts_le : p.stmts.size ≤ q.stmts.size
  stmt : ∀ s, s < p.stmts.size → (p.stmt s).Grown (q.stmt s)
  func : ∀ c, c < p.blocks.size → (q.block c).func = (p.block c).func
  parent : ∀ c, c < p.blocks.size → (q.block c).parent = (p.block c).parent
  prev : ∀ c, c < p.blocks.size → (q.block c).prev = (p.block c).prev
  next : ∀ c, c < p.blocks.size → c ≠ b → (q.block c).next = (p.block c).next
  stmts : ∀ c, c < p.blocks.size → c ≠ b → (q.block c).stmts = (p.block c).stmts
  definition : p.KeepsDefinitions q
  assigned : p.assigned.Within q.assigned

namespace Extends

variable {b c : BlockId} {p q r : Program}

theorem refl (b : BlockId) (p : Program) : p.Extends b p where
  blocks_le := Nat.le_refl _
  stmts_le := Nat.le_refl _
  stmt _ _ := .refl _
  func _ _ := rfl
  parent _ _ := rfl
  prev _ _ := rfl
  next _ _ _ := rfl
  stmts _ _ _ := rfl
  definition _ _ h := h
  assigned _ h := h

private theorem ne_of_new {d : BlockId} (hc : c = b ∨ p.blocks.size ≤ c) (hd : d < p.blocks.size)
    (hne : d ≠ b) : d ≠ c := by
  rcases hc with rfl | hc
  · exact hne
  · exact Nat.ne_of_lt (Nat.lt_of_lt_of_le hd hc)

/-- Lowering goes on from the same block or from a new one. -/
theorem trans (h : p.Extends b q) (k : q.Extends c r) (hc : c = b ∨ p.blocks.size ≤ c) : p.Extends b r where
  blocks_le := Nat.le_trans h.blocks_le k.blocks_le
  stmts_le := Nat.le_trans h.stmts_le k.stmts_le
  stmt s hs := (h.stmt s hs).trans (k.stmt s (Nat.lt_of_lt_of_le hs h.stmts_le))
  func d hd := (k.func d (Nat.lt_of_lt_of_le hd h.blocks_le)).trans (h.func d hd)
  parent d hd := (k.parent d (Nat.lt_of_lt_of_le hd h.blocks_le)).trans (h.parent d hd)
  prev d hd := (k.prev d (Nat.lt_of_lt_of_le hd h.blocks_le)).trans (h.prev d hd)
  next d hd hne :=
    (k.next d (Nat.lt_of_lt_of_le hd h.blocks_le) (ne_of_new hc hd hne)).trans (h.next d hd hne)
  stmts d hd hne :=
    (k.stmts d (Nat.lt_of_lt_of_le hd h.blocks_le) (ne_of_new hc hd hne)).trans (h.stmts d hd hne)
  definition t s hd := k.definition t s (h.definition t s hd)
  assigned n hn := k.assigned n (h.assigned n hn)

/-- A statement that can own blocks keeps doing so. -/
theorem isOwner (h : p.Extends b q) (hs : p.IsOwner s) : q.IsOwner s :=
  ⟨Nat.lt_of_lt_of_le hs.lt h.stmts_le, by rw [(h.stmt s hs.lt).blocks_eq]; exact hs.blocks, by
    rw [(h.stmt s hs.lt).block_eq]
    exact Nat.lt_of_lt_of_le hs.home h.blocks_le⟩

/-- What stands in a continued block keeps doing so. -/
theorem isJoined (h : p.Extends b q) (hnew : ∀ s, p.stmts.size ≤ s → q.IsJoined s) (hs : p.IsJoined s) :
    q.IsJoined s := by
  by_cases hlt : s < p.stmts.size
  · intro hb
    rw [(h.stmt s hlt).blocks_eq] at hb
    obtain ⟨d, hd, hprev⟩ := hs hb
    rw [(h.stmt s hlt).block_eq]
    exact ⟨d, Nat.lt_of_lt_of_le hd h.blocks_le, (h.prev d hd).trans hprev⟩
  · exact hnew s (Nat.not_lt.mp hlt)

end Extends

theorem isJoined_of_ge {p : Program} (hs : p.stmts.size ≤ s) : p.IsJoined s := by
  intro hb
  rw [p.stmt_of_ge s hs] at hb
  exact (hb rfl).elim

/-- The innermost loop around code depends on the statements that there are. -/
theorem Innermost.of_agree {p q : Program} {x : Option StmtId} {l : StmtId} (h : p.Innermost x l)
    (hq : ∀ s, s < p.stmts.size → (q.stmt s).action.isLoop = (p.stmt s).action.isLoop ∧
      (q.stmt s).parent = (p.stmt s).parent) : q.Innermost x l := by
  have hlt {s : StmtId} (hs : p.stmt s ≠ default) : s < p.stmts.size :=
    Nat.lt_of_not_le fun hge => hs (p.stmt_of_ge s hge)
  induction h with
  | @loop s hs =>
    have hlt := hlt (s := s) fun h => by rw [h] at hs; cases hs
    exact .loop ((hq s hlt).1.trans hs)
  | @outward s l hs hl ih =>
    have hlt := hlt (s := s) fun h => by rw [h] at hl; cases hl
    refine .outward ((hq s hlt).1.trans hs) ?_
    rw [(hq s hlt).2]
    exact ih

/-- Programs with the same statements and as many blocks have the same owners. -/
theorem isOwner_congr {p q : Program} (hs : q.stmts = p.stmts) (hb : q.blocks.size = p.blocks.size)
    (s : StmtId) : q.IsOwner s ↔ p.IsOwner s := by
  have hstmt : q.stmt = p.stmt := by
    unfold Program.stmt
    rw [hs]
  constructor <;> rintro ⟨hlt, hblocks, hhome⟩ <;> constructor <;> simp_all

/-- Programs with the same statements have the same loops around code. -/
theorem innermost_congr {p q : Program} (hs : q.stmts = p.stmts) (x : Option StmtId) (l : StmtId) :
    q.Innermost x l ↔ p.Innermost x l := by
  have hstmt : q.stmt = p.stmt := by
    unfold Program.stmt
    rw [hs]
  constructor <;> exact fun h => h.of_agree fun _ _ => by simp [hstmt]

/-- Lowering keeps the innermost loops. -/
theorem Extends.innermost {b : BlockId} {p q : Program} (h : p.Extends b q) {x : Option StmtId}
    {l : StmtId} (hl : p.Innermost x l) : q.Innermost x l :=
  hl.of_agree fun s hs => ⟨(h.stmt s hs).isLoop_eq, (h.stmt s hs).parent_eq⟩

/-- Programs that differ in the slots of blocks and in the names that they assign only. -/
structure Reslots (p q : Program) : Prop where
  stmts : q.stmts = p.stmts
  functions : q.functions = p.functions
  blocks_size : q.blocks.size = p.blocks.size
  block : ∀ {α : Type} (g : Block → α), (∀ x slots, g { x with slots } = g x) → ∀ c, g (q.block c) = g (p.block c)

namespace Reslots

variable (p : Program)

theorem stmt {q : Program} (h : p.Reslots q) : q.stmt = p.stmt := by
  unfold Program.stmt
  rw [h.stmts]

theorem setAssigned (a : NameSet) : p.Reslots { p with assigned := a } := ⟨rfl, rfl, rfl, fun _ _ _ => rfl⟩

theorem modifySlot (t : TempId) (f : Slot → Slot) : p.Reslots (p.modifySlot t f) :=
  ⟨rfl, rfl, p.blocks_size_modifyBlock _ _, fun g hg c => p.block_modifySlot_of_eq g t c f hg⟩

theorem addSlot (b : BlockId) (s : StmtId) : p.Reslots (p.addSlot b s) :=
  ⟨rfl, rfl, p.blocks_size_addSlot b s, fun g hg c => p.block_addSlot_of_eq g b c s hg⟩

end Reslots

/-- A new slot leaves the temps that were there. -/
theorem definition?_addSlot_of_some {p : Program} {b : BlockId} {x : StmtId}
    (hb : b < p.blocks.size) (h : p.definition? t = some x) : (p.addSlot b s).definition? t = some x := by
  rw [p.definition?_addSlot b s t hb, if_neg]
  · exact h
  · rintro rfl
    simp [definition?_eq] at h

theorem Built.coherent {strict : Prop} {p : Program} (hp : p.Built strict) : p.Coherent where
  home := hp.home
  parent := hp.parent
  nodup := hp.nodup
  unique b1 b2 s1 s2 t h1 h2 ht1 ht2 :=
    Option.some.inj ((hp.tied b1 s1 t h1 ht1).symm.trans (hp.tied b2 s2 t h2 ht2))
  tied b s t hs ht := .inl (hp.tied b s t hs ht)
  definition t s hd := (hp.definition t s hd).2
  owner s q hs := by
    have hq := (hp.stmtOwner s q hs).2
    cases ha : (p.stmt q).action <;> simp_all [Action.blocks, Action.temp?]
  copies d c hc := (hp.copies d c hc).2
  next b c hb := ⟨(hp.next b c hb).1, (hp.next b c hb).2.2⟩
  prev := hp.prev
  owned b s h hs hh := (hp.owned b s h hs hh).1
  jump := hp.jump

/-- A statement that stands nowhere and can stand in a block. -/
structure Fits (p : Program) (b : BlockId) (s : StmtId) (x : Stmt) : Prop where
  lt : b < p.blocks.size
  known : s < p.stmts.size
  stmt : p.stmt s = x
  new : s ∉ (p.block b).stmts
  home : x.block = b
  parent : x.parent = (p.block b).parent
  tied : ∀ t, x.action.temp? = some t → p.definition? t = some s
  owned : ∀ h, h ∈ x.action.blocks → (p.block h).parent = some s ∧ (p.block h).prev = none
  jump : ∀ l, x.action.jump? = some l → p.Innermost x.parent l

namespace Built

variable {strict : Prop} {p : Program}

/-! ## Statements -/

/-- A statement may be added that is owned properly and merges nothing yet. -/
theorem addStmt (hp : p.Built strict) (x : Stmt) (hx : ∀ q, x.parent = some q → p.IsOwner q)
    (hc : x.action.copies = []) (hd : x.action.blocks.Nodup) : (p.addStmt x).Built strict := by
  have hold : ∀ s, s < p.stmts.size → (p.addStmt x).stmt s = p.stmt s := p.stmt_addStmt_of_lt x
  have howner : ∀ q, p.IsOwner q → (p.addStmt x).IsOwner q := fun q hq =>
    ⟨by simp [Nat.lt_succ_of_lt hq.lt], by rw [hold q hq.lt]; exact hq.blocks, by
      rw [hold q hq.lt]
      exact hq.home⟩
  constructor
  case home =>
    intro b s hs
    have h := hp.home b s hs
    rw [hold s h.1, stmts_size_addStmt]
    exact ⟨Nat.lt_succ_of_lt h.1, h.2⟩
  case parent =>
    intro b s hs
    rw [hold s (hp.home b s hs).1]
    exact hp.parent b s hs
  case tied =>
    intro b s t hs ht
    rw [hold s (hp.home b s hs).1] at ht
    exact hp.tied b s t hs ht
  case definition =>
    intro t s hd
    have h := hp.definition t s hd
    rw [hold s h.1, stmts_size_addStmt]
    exact ⟨Nat.lt_succ_of_lt h.1, h.2⟩
  case stmtOwner =>
    intro s q hs
    rw [stmt_addStmt] at hs
    split at hs
    · exact howner q (hx q hs)
    · exact howner q (hp.stmtOwner s q hs)
  case blockOwner =>
    intro b q hb
    obtain ⟨hq, hlt⟩ := hp.blockOwner b q hb
    rw [hold q hq.lt]
    exact ⟨howner q hq, hlt⟩
  case copies =>
    intro d c hd
    rw [stmt_addStmt] at hd
    split at hd
    · rw [hc] at hd
      cases hd
    · have h := hp.copies d c hd
      rw [hold c h.1, stmts_size_addStmt]
      exact ⟨Nat.lt_succ_of_lt h.1, h.2⟩
  case owned =>
    intro b s h hs hh
    rw [hold s (hp.home b s hs).1] at hh
    exact hp.owned b s h hs hh
  case jump =>
    intro b s l hs hl
    have h := (hp.home b s hs).1
    rw [hold s h] at hl ⊢
    exact (hp.jump b s l hs hl).of_agree fun q hq => by rw [hold q hq]; exact ⟨rfl, rfl⟩
  case ends =>
    intro hst b s hs he
    rw [hold s (hp.home b s hs).1] at he
    exact hp.ends hst b s hs he
  case owners =>
    intro b s hs hb
    rw [hold s (hp.home b s hs).1] at hb
    exact hp.owners b s hs hb
  case distinct =>
    intro s
    rw [stmt_addStmt]
    split
    · exact hd
    · exact hp.distinct s
  case ownerFunc =>
    intro b q hb
    rw [hold q (hp.blockOwner b q hb).1.lt]
    exact hp.ownerFunc b q hb
  all_goals
    cases hp
    assumption

/-- Slots may change, as long as the temps that statements define stay tied to them. -/
theorem reslot {q : Program} (hp : p.Built strict) (h : p.Reslots q)
    (htied : p.KeepsDefinitions q)
    (hdefinition : ∀ t s, q.definition? t = some s →
      p.definition? t = some s ∨ s < p.stmts.size ∧ (p.stmt s).action.temp? = some t) : q.Built strict := by
  have hstmts := h.block (·.stmts) fun _ _ => rfl
  have hnext := h.block (·.next) fun _ _ => rfl
  have hprev := h.block (·.prev) fun _ _ => rfl
  have hparent := h.block (·.parent) fun _ _ => rfl
  have hfunc := h.block (·.func) fun _ _ => rfl
  have hstmt : q.stmt = p.stmt := h.stmt
  have howner := isOwner_congr h.stmts h.blocks_size
  have hjump := innermost_congr h.stmts
  constructor
  case tied =>
    simp only [hstmts, hstmt]
    exact fun b s t hs ht => htied t s (hp.tied b s t hs ht)
  case definition =>
    rw [h.stmts, hstmt]
    exact fun t s hd => (hdefinition t s hd).elim (hp.definition t s) id
  all_goals
    simp only [Program.function, EndsLast, OwnersLast, hstmts, hnext, hprev, hparent, hfunc, hstmt, howner,
      hjump, h.stmts, h.functions, h.blocks_size]
    cases hp
    assumption

/-- The names that a program assigns do not matter. -/
theorem setAssigned (hp : p.Built strict) (a : NameSet) :
    ({ p with assigned := a } : Program).Built strict :=
  hp.reslot (.setAssigned p a) (fun _ _ => id) fun _ _ => .inl

/-- What the temps of a program are known by besides their definitions does not matter. -/
theorem modifySlot (hp : p.Built strict) (t : TempId) (f : Slot → Slot)
    (hf : ∀ y, (f y).definition = y.definition) : (p.modifySlot t f).Built strict := by
  refine hp.reslot (.modifySlot p t f) (.of_eq (p.definition?_modifySlot t f hf)) ?_
  rw [p.definition?_modifySlot t f hf]
  exact fun _ _ => .inl

/-- A slot may be added for the temp that a statement defines. -/
theorem addSlot (hp : p.Built strict) (b : BlockId) (s : StmtId) (hb : b < p.blocks.size)
    (hs : s < p.stmts.size) (ht : (p.stmt s).action.temp? = some ⟨b, (p.block b).slots.size⟩) :
    (p.addSlot b s).Built strict := by
  refine hp.reslot (.addSlot p b s) (fun _ _ => definition?_addSlot_of_some hb) fun t x hd => ?_
  rw [definition?_addSlot p b s t hb] at hd
  split at hd
  · next he =>
    cases hd
    rw [he]
    exact .inr ⟨hs, ht⟩
  · exact .inl hd

/-- A statement that stands nowhere may be placed in its block, where it does not come behind one that
ends the block. -/
theorem setStmts (hp : p.Built strict) {b : BlockId} {x : Stmt} (hx : p.Fits b s x) (list : List StmtId)
    (hl : list.Perm (s :: (p.block b).stmts))
    (hends : strict → ∀ x, x ∈ list → (p.stmt x).action.endsBlock = true → list.getLast? = some x)
    (howners : ∀ x, x ∈ list → (p.stmt x).action.blocks ≠ [] → list.getLast? = some x) :
    (p.modifyBlock b fun x => { x with stmts := list }).Built strict := by
  obtain ⟨hb, hs, rfl, hnew, hhome, hparent, htied, howned, hjump⟩ := hx
  obtain ⟨q, hq⟩ : ∃ q, p.modifyBlock b (fun x => { x with stmts := list }) = q := ⟨_, rfl⟩
  have hkeep : ∀ {α : Type} (g : Block → α), (∀ x l, g { x with stmts := l } = g x) → ∀ c,
      g (q.block c) = g (p.block c) :=
    fun g hg c => hq ▸ p.block_modifyBlock_of_eq g b c _ fun x => hg x _
  have hnext := hkeep (·.next) fun _ _ => rfl
  have hprev := hkeep (·.prev) fun _ _ => rfl
  have howner := hkeep (·.parent) fun _ _ => rfl
  have hfunc := hkeep (·.func) fun _ _ => rfl
  have hstmts : ∀ c, (q.block c).stmts = if c = b then list else (p.block c).stmts := by
    intro c
    rw [← hq, block_modifyBlock]
    by_cases hc : c = b <;> simp [hc, hb]
  have hmem : ∀ c x, x ∈ (q.block c).stmts → (c = b ∧ x = s) ∨ x ∈ (p.block c).stmts := by
    intro c x hx
    rw [hstmts] at hx
    split at hx
    · next hc =>
      subst hc
      rcases List.mem_cons.mp (hl.mem_iff.mp hx) with rfl | hx
      · exact .inl ⟨rfl, rfl⟩
      · exact .inr hx
    · exact .inr hx
  have hend : ∀ (P : StmtId → Prop), (∀ x, x ∈ list → P x → list.getLast? = some x) →
      (∀ c x, x ∈ (p.block c).stmts → P x → (p.block c).stmts.getLast? = some x) →
      ∀ c x, x ∈ (q.block c).stmts → P x → (q.block c).stmts.getLast? = some x := by
    intro P hlist hP c x hx hPx
    rw [hstmts] at hx ⊢
    split at hx
    · next hc =>
      rw [if_pos hc]
      exact hlist x hx hPx
    · next hc =>
      rw [if_neg hc]
      exact hP c x hx hPx
  have hsame : q.stmts = p.stmts := hq ▸ rfl
  have hstmt : q.stmt = p.stmt := hq ▸ rfl
  have hfunction : q.function = p.function := hq ▸ rfl
  have hfunctions : q.functions = p.functions := hq ▸ rfl
  have hsize : q.blocks.size = p.blocks.size := hq ▸ p.blocks_size_modifyBlock b _
  have hdef : q.definition? = p.definition? := hq ▸ definition?_modifyBlock p b _ (by intro; rfl)
  have hkept := isOwner_congr hsame hsize
  have hloops := innermost_congr hsame
  rw [hq]
  constructor
  case nodup =>
    intro c
    rw [hstmts]
    split
    · exact hl.nodup_iff.mpr (List.nodup_cons.mpr ⟨hnew, hp.nodup b⟩)
    · exact hp.nodup c
  case ends =>
    rw [EndsLast, hstmt]
    exact fun hst => hend _ (hends hst) (hp.ends hst)
  case owners =>
    rw [OwnersLast, hstmt]
    exact hend _ howners hp.owners
  case home =>
    intro c x hx
    rw [hstmt, hsame]
    rcases hmem c x hx with ⟨rfl, rfl⟩ | hx
    · exact ⟨hs, hhome⟩
    · exact hp.home c x hx
  case parent =>
    intro c x hx
    rw [hstmt, howner]
    rcases hmem c x hx with ⟨rfl, rfl⟩ | hx
    · exact hparent
    · exact hp.parent c x hx
  case tied =>
    intro c x t hx ht
    rw [hstmt] at ht
    rw [hdef]
    rcases hmem c x hx with ⟨rfl, rfl⟩ | hx
    · exact htied t ht
    · exact hp.tied c x t hx ht
  case owned =>
    intro c x h hx hh
    rw [hstmt] at hh
    rw [howner, hprev]
    rcases hmem c x hx with ⟨rfl, rfl⟩ | hx
    · exact howned h hh
    · exact hp.owned c x h hx hh
  case jump =>
    intro c x l hx hj
    rw [hstmt] at hj ⊢
    rw [hloops]
    rcases hmem c x hx with ⟨rfl, rfl⟩ | hx
    · exact hjump l hj
    · exact hp.jump c x l hx hj
  all_goals
    simp only [hnext, hprev, howner, hfunc, hstmt, hsame, hfunction, hfunctions, hkept, hdef, hsize]
    cases hp
    assumption

/-- A statement that stands nowhere may be placed at the end of a block that nothing ends. -/
theorem place (hp : p.Built strict) {b : BlockId} {x : Stmt} (hx : p.Fits b s x)
    (hopen : strict → p.Open b) (hplain : p.Plain b) : (p.place b s).Built strict := by
  rw [p.place_eq b s]
  refine hp.setStmts hx _ (List.perm_append_singleton s _) ?_ ?_
  · intro hst x hx he
    rcases List.mem_append.mp hx with hx | hx
    · rw [hopen hst x hx] at he
      cases he
    · rw [List.mem_singleton.mp hx]
      exact List.getLast?_concat
  · intro x hx hne
    rcases List.mem_append.mp hx with hx | hx
    · exact (hne (hplain x hx)).elim
    · rw [List.mem_singleton.mp hx]
      exact List.getLast?_concat

/-- A statement may change what it does, as long as it is known by the same. -/
theorem setAction (hp : p.Built strict) (s : StmtId) (a : Action)
    (htemp : a.temp? = (p.stmt s).action.temp?) (hjump : a.jump? = (p.stmt s).action.jump?)
    (hloop : a.isLoop = (p.stmt s).action.isLoop) (hends : a.endsBlock = (p.stmt s).action.endsBlock)
    (hblocks : (p.stmt s).action.blocks ≠ [] ↔ a.blocks ≠ []) (hdistinct : a.blocks.Nodup)
    (howned : ∀ h, h ∈ a.blocks → (p.block h).parent = some s ∧ (p.block h).prev = none)
    (hcopies : ∀ c, c ∈ a.copies → c < p.stmts.size ∧ (p.stmt c).action.temp? = none) :
    (p.modifyStmt s fun x => { x with action := a }).Built strict := by
  have hkeep : ∀ {α : Type} (g : Stmt → α), (∀ x, g { x with action := a } = g x) → ∀ t,
      g ((p.modifyStmt s fun x => { x with action := a }).stmt t) = g (p.stmt t) :=
    fun g hg t => p.stmt_modifyStmt_of_eq g s t _ hg
  have haction : ∀ {α : Type} (g : Action → α), g a = g (p.stmt s).action → ∀ t,
      g ((p.modifyStmt s fun x => { x with action := a }).stmt t).action = g (p.stmt t).action := by
    intro α g hg t
    rw [stmt_modifyStmt]
    split
    · next h => rw [h.1]; exact hg
    · rfl
  have hblock := hkeep (·.block) fun _ => rfl
  have hparent := hkeep (·.parent) fun _ => rfl
  have htemp := haction (·.temp?) htemp
  have hjump := haction (·.jump?) hjump
  have hloop := haction (·.isLoop) hloop
  have hends := haction (·.endsBlock) hends
  have howner : ∀ q, p.IsOwner q → (p.modifyStmt s fun x => { x with action := a }).IsOwner q := by
    intro q hq
    refine ⟨by simpa using hq.lt, ?_, by rw [hblock]; exact hq.home⟩
    rw [stmt_modifyStmt]
    split
    · next h => exact hblocks.mp (h.1 ▸ hq.blocks)
    · exact hq.blocks
  constructor
  case stmtOwner =>
    simp only [hparent]
    exact fun x q hx => howner q (hp.stmtOwner x q hx)
  case blockOwner =>
    simp only [hblock]
    exact fun c q hc => ⟨howner q (hp.blockOwner c q hc).1, (hp.blockOwner c q hc).2⟩
  case copies =>
    intro d c hc
    rw [htemp, stmts_size_modifyStmt]
    rw [stmt_modifyStmt] at hc
    split at hc
    · exact hcopies c hc
    · exact hp.copies d c hc
  case owned =>
    intro c x h hx hh
    rw [stmt_modifyStmt] at hh
    split at hh
    · next he => rw [he.1]; exact howned h hh
    · exact hp.owned c x h hx hh
  case jump =>
    simp only [hjump, hparent]
    exact fun c x l hx hl => (hp.jump c x l hx hl).of_agree fun q _ => ⟨hloop q, hparent q⟩
  case owners =>
    intro c x hx hne
    rw [stmt_modifyStmt] at hne
    split at hne
    · next he => exact hp.owners c x hx (he.1 ▸ hblocks.mpr hne)
    · exact hp.owners c x hx hne
  case distinct =>
    intro x
    rw [stmt_modifyStmt]
    split
    · exact hdistinct
    · exact hp.distinct x
  all_goals
    simp only [EndsLast, block_modifyStmt, hblock, hparent, htemp, hends, stmts_size_modifyStmt,
      definition?_modifyStmt]
    cases hp
    assumption

/-- A merging temp may get a further copy that stands nowhere. -/
theorem addCopy (hp : p.Built strict) {d : StmtId} {x : Stmt} (hd : p.definition? t = some d)
    (ha : (p.stmt d).action = .define u (.merge cs) m) (hx : ∀ q, x.parent = some q → p.IsOwner q)
    (hc : x.action.copies = []) (ht : x.action.temp? = none) (hb : x.action.blocks = []) :
    (p.addCopy d t cs x).Built strict := by
  obtain ⟨hlt, htemp⟩ := hp.definition t d hd
  have hstmt := p.stmt_addStmt_of_lt x d hlt
  rw [ha] at htemp
  cases htemp
  refine (hp.addStmt x hx hc (by simp [hb])).setAction d _ ?_ ?_ ?_ ?_ ?_ List.nodup_nil nofun ?_
  iterate 5
    · rw [hstmt, ha]
      rfl
  · intro c hc'
    rcases List.mem_append.mp hc' with hc' | hc'
    · have h := hp.copies d c (by rw [ha]; exact hc')
      rw [stmts_size_addStmt, p.stmt_addStmt_of_lt x c h.1]
      exact ⟨Nat.lt_succ_of_lt h.1, h.2⟩
    · rw [List.mem_singleton.mp hc', stmt_addStmt_self, stmts_size_addStmt]
      exact ⟨Nat.lt_succ_self _, ht⟩

/-! ## Blocks -/

/-- A block may be added for a statement of its function that can own it. -/
theorem addBlock (hp : p.Built strict) (f : FuncId) (q : Option StmtId)
    (hq : ∀ s, q = some s → p.IsOwner s ∧ (p.block (p.stmt s).block).func = f) :
    (p.addBlock f q).Built strict := by
  have hstmts := fun c => p.block_addBlock_of_eq (·.stmts) f q c rfl
  have hnext := fun c => p.block_addBlock_of_eq (·.next) f q c rfl
  have hprev := fun c => p.block_addBlock_of_eq (·.prev) f q c rfl
  have hparent : ∀ c, c < p.blocks.size → ((p.addBlock f q).block c).parent = (p.block c).parent := by
    intro c hc
    rw [block_addBlock, if_neg (Nat.ne_of_lt hc)]
  have hfunc : ∀ c, c < p.blocks.size → ((p.addBlock f q).block c).func = (p.block c).func := by
    intro c hc
    rw [block_addBlock, if_neg (Nat.ne_of_lt hc)]
  have howner : ∀ s, p.IsOwner s → (p.addBlock f q).IsOwner s := fun s hs =>
    ⟨hs.lt, hs.blocks, by rw [blocks_size_addBlock]; exact Nat.lt_succ_of_lt hs.home⟩
  constructor
  case parent =>
    intro b s hs
    rw [hstmts] at hs
    rw [hparent b (p.lt_of_mem_stmts hs)]
    exact hp.parent b s hs
  case stmtOwner => exact fun x s hx => howner s (hp.stmtOwner x s hx)
  case blockOwner =>
    intro b s hb
    rw [block_addBlock] at hb
    split at hb
    · next he =>
      rw [he]
      exact ⟨howner s (hq s hb).1, (hq s hb).1.home⟩
    · exact ⟨howner s (hp.blockOwner b s hb).1, (hp.blockOwner b s hb).2⟩
  case next =>
    intro b c hb
    rw [hnext] at hb
    obtain ⟨h1, h2, h3, h4⟩ := hp.next b c hb
    rw [hprev, hparent c h2, hparent b (Nat.lt_trans h1 h2), blocks_size_addBlock]
    exact ⟨h1, Nat.lt_succ_of_lt h2, h3, h4⟩
  case owned =>
    intro b s h hs hh
    rw [hstmts] at hs
    have ho := hp.owned b s h hs hh
    rw [hparent h (p.lt_of_parent ho.1), hprev]
    exact ho
  case listed =>
    intro g hg
    have hg : g < p.functions.size := by simpa [Program.addBlock] using hg
    have hrange : (List.range p.blocks.size).filter (fun b => ((p.addBlock f q).block b).func == g) =
        (p.function g).blocks := by
      rw [hp.listed g hg]
      refine List.filter_congr fun b hb => ?_
      rw [hfunc b (List.mem_range.mp hb)]
    have hnew : ((p.addBlock f q).block p.blocks.size).func = f := by
      rw [block_addBlock, if_pos rfl]
    have hblocks : ((p.addBlock f q).function g).blocks =
        (p.function g).blocks ++ if f = g then [p.blocks.size] else [] := by
      by_cases hfg : f = g
      · simp [Program.addBlock, Program.function, hfg, hg, Array.getElem_modify]
      · simp [Program.addBlock, Program.function, hfg, Array.getElem?_modify]
    rw [hblocks, blocks_size_addBlock, List.range_succ, List.filter_append, hrange, List.filter_cons, hnew]
    by_cases hfg : f = g <;> simp [hfg]
  case nextFunc =>
    intro b c hb
    rw [hnext] at hb
    obtain ⟨h1, h2, -⟩ := hp.next b c hb
    rw [hfunc b (Nat.lt_trans h1 h2), hfunc c h2]
    exact hp.nextFunc b c hb
  case ownerFunc =>
    intro b s hb
    rw [block_addBlock] at hb
    split at hb
    · next he =>
      obtain ⟨hs, hf⟩ := hq s hb
      rw [stmt_addBlock, hfunc _ hs.home, hf, he, block_addBlock, if_pos rfl]
    · have hs := hp.blockOwner b s hb
      rw [stmt_addBlock, hfunc _ hs.1.home, hfunc b (p.lt_of_parent hb)]
      exact hp.ownerFunc b s hb
  all_goals
    simp only [EndsLast, OwnersLast, stmt_addBlock, stmts_addBlock, definition?_addBlock, hstmts, hnext,
      hprev, innermost_congr (p.stmts_addBlock f q)]
    cases hp
    assumption

/-- Blocks may be added for a statement that can own them. -/
theorem addBlocks (hp : p.Built strict) (f : FuncId) (q : Option StmtId) (n : Nat)
    (hq : ∀ s, q = some s → p.IsOwner s ∧ (p.block (p.stmt s).block).func = f) :
    (p.addBlocks f q n).Built strict := by
  induction n with
  | zero => exact hp
  | succ n ih =>
    refine ih.addBlock f q fun s hs => ?_
    obtain ⟨⟨h1, h2, h3⟩, hf⟩ := hq s hs
    refine ⟨⟨by rwa [stmts_addBlocks], by rwa [stmt_addBlocks], ?_⟩, ?_⟩
    · rw [stmt_addBlocks, blocks_size_addBlocks]
      exact Nat.lt_of_lt_of_le h3 (Nat.le_add_right _ _)
    · rw [stmt_addBlocks, p.block_addBlocks_of_lt _ _ _ _ h3]
      exact hf

/-- The last block of a chain may be continued in a later one that stands for itself. -/
theorem link (hp : p.Built strict) (b c : BlockId) (hb : (p.block b).next = none)
    (hc : (p.block c).prev = none) (hlt : b < c) (hsize : c < p.blocks.size)
    (hparent : (p.block c).parent = (p.block b).parent) (hfunc : (p.block c).func = (p.block b).func)
    (hfree : ∀ d s, s ∈ (p.block d).stmts → c ∉ (p.stmt s).action.blocks) :
    (p.link b c).Built strict := by
  have hkeep : ∀ {α : Type} (g : Block → α), (∀ x n, g { x with next := n } = g x) →
      (∀ x n, g { x with prev := n } = g x) → ∀ d, g ((p.link b c).block d) = g (p.block d) :=
    fun g hn hp d => p.block_link_of_eq g b c d hn hp
  have hstmts := hkeep (·.stmts) (fun _ _ => rfl) fun _ _ => rfl
  have howner := hkeep (·.parent) (fun _ _ => rfl) fun _ _ => rfl
  have hfuncs := hkeep (·.func) (fun _ _ => rfl) fun _ _ => rfl
  have hnext : ∀ d, ((p.link b c).block d).next = if d = b then some c else (p.block d).next :=
    fun d => p.next_link b c d (Nat.lt_trans hlt hsize)
  have hprev : ∀ d, ((p.link b c).block d).prev = if d = c then some b else (p.block d).prev :=
    fun d => p.prev_link b c d hsize
  constructor
  case next =>
    intro x y hx
    rw [hnext] at hx
    rw [hprev, howner, howner, blocks_size_link]
    split at hx
    · next he =>
      cases hx
      rw [he]
      exact ⟨hlt, hsize, if_pos rfl, hparent⟩
    · obtain ⟨h1, h2, h3, h4⟩ := hp.next x y hx
      have hy : y ≠ c := by
        intro hy
        rw [hy, hc] at h3
        cases h3
      rw [if_neg hy]
      exact ⟨h1, h2, h3, h4⟩
  case prev =>
    intro x y hy
    rw [hprev] at hy
    rw [hnext]
    split at hy
    · next he =>
      cases hy
      rw [if_pos rfl, he]
    · have h := hp.prev x y hy
      have hx : x ≠ b := by
        intro hx
        rw [hx, hb] at h
        cases h
      rw [if_neg hx]
      exact h
  case owned =>
    intro d s h hs hh
    rw [hstmts] at hs
    have hne : h ≠ c := fun he => hfree d s hs (he ▸ hh)
    rw [howner, hprev, if_neg hne]
    exact hp.owned d s h hs hh
  case nextFunc =>
    intro x y hx
    rw [hnext] at hx
    rw [hfuncs, hfuncs]
    split at hx
    · next he =>
      cases hx
      rw [he]
      exact hfunc
    · exact hp.nextFunc x y hx
  all_goals
    simp only [EndsLast, OwnersLast, stmt_link, stmts_link, definition?_link, blocks_size_link, hstmts, howner,
      hfuncs, isOwner_congr (p.stmts_link b c) (p.blocks_size_link b c), innermost_congr (p.stmts_link b c)]
    cases hp
    assumption

/-- The first block of a function has nothing around it and nothing before it. -/
theorem entry (hp : p.Built strict) {f : FuncId} {b : BlockId} (hb : p.firstBlock? f = some b) :
    (p.block b).parent = none ∧ (p.block b).prev = none := by
  have hf : f < p.functions.size := by
    apply Nat.lt_of_not_le
    intro hge
    simp [firstBlock?, function, Array.getD, Nat.not_lt.mpr hge] at hb
    cases hb
  have hmem : ∀ c, c ∈ (p.function f).blocks ↔ c < p.blocks.size ∧ (p.block c).func = f := by
    simp [hp.listed f hf]
  have hsorted : (p.function f).blocks.Pairwise (· < ·) := by
    rw [hp.listed f hf]
    exact List.pairwise_lt_range.filter _
  -- The blocks of a function are listed in order, so every other one comes behind the first.
  obtain ⟨rest, hrest⟩ := List.head?_eq_some_iff.mp hb
  obtain ⟨hbs, hfunc⟩ := (hmem b).mp (hrest ▸ List.mem_cons_self)
  have hfirst : ∀ c, (p.block c).func = f → c < b → False := by
    intro c hc hlt
    have hm := (hmem c).mpr ⟨Nat.lt_trans hlt hbs, hc⟩
    rw [hrest] at hm hsorted
    rcases List.mem_cons.mp hm with rfl | hm
    · exact Nat.lt_irrefl _ hlt
    · exact Nat.lt_asymm hlt (List.rel_of_pairwise_cons hsorted hm)
  constructor
  · cases hq : (p.block b).parent with
    | none => rfl
    | some q => exact (hfirst _ ((hp.ownerFunc b q hq).trans hfunc) (hp.blockOwner b q hq).2).elim
  · cases ha : (p.block b).prev with
    | none => rfl
    | some a =>
      have hn := hp.prev a b ha
      exact (hfirst a ((hp.nextFunc a b hn).symm.trans hfunc) (hp.next a b hn).1).elim

end Built

/-! ## What single changes add -/

namespace Extends

variable {b c d : BlockId} {p q : Program}

theorem addStmt (h : p.Extends b q) (x : Stmt) : p.Extends b (q.addStmt x) :=
  { h with
    stmts_le := by
      rw [stmts_size_addStmt]
      exact Nat.le_succ_of_le h.stmts_le
    stmt := by
      intro s hs
      rw [q.stmt_addStmt_of_lt x s (Nat.lt_of_lt_of_le hs h.stmts_le)]
      exact h.stmt s hs }

theorem reslot {r : Program} (h : p.Extends b q) (hr : q.Reslots r) (hdefinition : q.KeepsDefinitions r)
    (hassigned : q.assigned.Within r.assigned) : p.Extends b r where
  blocks_le := hr.blocks_size ▸ h.blocks_le
  stmts_le := hr.stmts ▸ h.stmts_le
  stmt := hr.stmt ▸ h.stmt
  func := by simpa only [hr.block (·.func) fun _ _ => rfl] using h.func
  parent := by simpa only [hr.block (·.parent) fun _ _ => rfl] using h.parent
  prev := by simpa only [hr.block (·.prev) fun _ _ => rfl] using h.prev
  next := by simpa only [hr.block (·.next) fun _ _ => rfl] using h.next
  stmts := by simpa only [hr.block (·.stmts) fun _ _ => rfl] using h.stmts
  definition t s hd := hdefinition t s (h.definition t s hd)
  assigned n hn := hassigned n (h.assigned n hn)

theorem setAssigned (h : p.Extends b q) {a : NameSet} (ha : q.assigned.Within a) :
    p.Extends b { q with assigned := a } :=
  h.reslot (.setAssigned q a) (fun _ _ => id) ha

/-- A change of what a new block, or the first one, lists. -/
theorem setStmts (h : p.Extends b q) (hc : c = b ∨ p.blocks.size ≤ c) (list : List StmtId) :
    p.Extends b (q.modifyBlock c fun x => { x with stmts := list }) := by
  have hkeep := fun {α : Type} (g : Block → α) e => q.block_modifyBlock_of_eq g c e fun x => { x with stmts := list }
  constructor
  case stmts =>
    intro e he hne
    rw [q.block_modifyBlock_of_ne c e _ (ne_of_new hc he hne)]
    exact h.stmts e he hne
  all_goals
    try simp only [blocks_size_modifyBlock, hkeep (·.func) _ fun _ => rfl, hkeep (·.parent) _ fun _ => rfl,
      hkeep (·.prev) _ fun _ => rfl, hkeep (·.next) _ fun _ => rfl, KeepsDefinitions,
      q.definition?_modifyBlock c (fun x => { x with stmts := list }) fun _ => rfl]
    cases h
    assumption

theorem place (h : p.Extends b q) (hc : c = b ∨ p.blocks.size ≤ c) (s : StmtId) :
    p.Extends b (q.place c s) := by
  rw [q.place_eq c s]
  exact h.setStmts hc _

theorem addSlot (h : p.Extends b q) (hlt : c < q.blocks.size) (s : StmtId) :
    p.Extends b (q.addSlot c s) :=
  h.reslot (.addSlot q c s) (fun _ _ => definition?_addSlot_of_some hlt) fun _ => id

theorem modifySlot (h : p.Extends b q) (t : TempId) (f : Slot → Slot)
    (hf : ∀ y, (f y).definition = y.definition) : p.Extends b (q.modifySlot t f) :=
  h.reslot (.modifySlot q t f) (.of_eq (q.definition?_modifySlot t f hf)) fun _ => id

theorem addBlock (h : p.Extends b q) (f : FuncId) (x : Option StmtId) : p.Extends b (q.addBlock f x) := by
  have hold : ∀ e, e < p.blocks.size → (q.addBlock f x).block e = q.block e := by
    intro e he
    rw [block_addBlock, if_neg (Nat.ne_of_lt (Nat.lt_of_lt_of_le he h.blocks_le))]
  constructor
  case blocks_le =>
    rw [blocks_size_addBlock]
    exact Nat.le_succ_of_le h.blocks_le
  case definition =>
    rw [KeepsDefinitions, definition?_addBlock]
    exact h.definition
  case func | parent | prev | next | stmts =>
    intro e he
    rw [hold e he]
    revert e
    cases h
    assumption
  all_goals
    cases h
    assumption

theorem addBlocks (h : p.Extends b q) (f : FuncId) (x : Option StmtId) (n : Nat) :
    p.Extends b (q.addBlocks f x n) := by
  induction n with
  | zero => exact h
  | succ n ih => exact ih.addBlock f x

theorem link (h : p.Extends b q) (hc : c = b ∨ p.blocks.size ≤ c) (hd : p.blocks.size ≤ d)
    (hcq : c < q.blocks.size) (hdq : d < q.blocks.size) : p.Extends b (q.link c d) := by
  have hkeep := fun {α : Type} (g : Block → α) e => q.block_link_of_eq g c d e
  constructor
  case prev =>
    intro e he
    rw [q.prev_link c d e hdq, if_neg (Nat.ne_of_lt (Nat.lt_of_lt_of_le he hd))]
    exact h.prev e he
  case next =>
    intro e he hne
    rw [q.next_link c d e hcq, if_neg (ne_of_new hc he hne)]
    exact h.next e he hne
  all_goals
    try simp only [blocks_size_link, KeepsDefinitions, definition?_link, hkeep (·.func) _ (fun _ _ => rfl) fun _ _ => rfl,
      hkeep (·.parent) _ (fun _ _ => rfl) fun _ _ => rfl, hkeep (·.stmts) _ (fun _ _ => rfl) fun _ _ => rfl]
    cases h
    assumption

/-- A change of a new statement, or further copies of a merging one. -/
theorem setAction (h : p.Extends b q) (s : StmtId) (a : Action)
    (hs : s < p.stmts.size → (q.stmt s).Grown { q.stmt s with action := a }) :
    p.Extends b (q.modifyStmt s fun x => { x with action := a }) :=
  { h with
    stmts_le := by
      rw [stmts_size_modifyStmt]
      exact h.stmts_le
    stmt := by
      intro x hx
      rw [stmt_modifyStmt]
      split
      · next he =>
        obtain ⟨rfl, -⟩ := he
        exact (h.stmt x hx).trans (hs hx)
      · exact h.stmt x hx
    definition := by
      rw [KeepsDefinitions, definition?_modifyStmt]
      exact h.definition }

theorem addCopy (h : p.Extends b q) {x : Stmt} (hs : s < q.stmts.size)
    (ha : (q.stmt s).action = .define u (.merge cs) m) (hu : u = t) : p.Extends b (q.addCopy s t cs x) := by
  subst hu
  refine (h.addStmt x).setAction s _ fun _ => .inr ?_
  rw [q.stmt_addStmt_of_lt x s hs]
  exact ⟨u, cs, _, m, _, ha, List.prefix_append _ _, rfl⟩

end Extends

/-- A statement that owns no blocks may be added. -/
theorem isJoined_of_addStmt {p q : Program} {x : Stmt} (hb : x.action.blocks = []) (hs : p.stmts.size ≤ s)
    (hq : q.stmt s = (p.addStmt x).stmt s) : q.IsJoined s := by
  intro hne
  rcases Nat.eq_or_lt_of_le hs with rfl | hlt
  · rw [hq, stmt_addStmt_self] at hne
    exact (hne hb).elim
  · rw [hq, stmt_of_ge _ s (by rwa [stmts_size_addStmt])] at hne
    exact (hne rfl).elim

theorem isJoined_of_addCopy {p q : Program} {d : StmtId} {x : Stmt} (hb : x.action.blocks = [])
    (hs : p.stmts.size ≤ s) (hd : d < p.stmts.size) (hq : q.stmt s = (p.addCopy d t cs x).stmt s) : q.IsJoined s :=
  isJoined_of_addStmt hb hs
    (hq.trans (stmt_modifyStmt_of_ne _ _ _ _ (Nat.ne_of_gt (Nat.lt_of_lt_of_le hd hs))))

/-! ## Owners -/

/-- A branch or a loop `n` that was added at the end of block `b`. The flag `closed` says whether the block is
continued behind it. -/
structure Owned (strict closed : Prop) (p : Program) (b : BlockId) (n : StmtId) (q : Program) : Prop where
  built : q.Built strict
  program : p.Extends b q
  lt : b < p.blocks.size
  new : p.stmts.size ≤ n
  owner : q.IsOwner n
  home : (q.stmt n).block = b
  parent : (q.stmt n).parent = (p.block b).parent
  last : ∃ front, (q.block b).stmts = front ++ [n]
  joined : ∀ s, p.stmts.size ≤ s → s ≠ n ∨ closed → q.IsJoined s

namespace Owned

variable {strict closed : Prop} {p q r : Program} {b e : BlockId} {n : StmtId}

/-- Code in a block that the owner was given. -/
theorem run (h : Owned strict closed p b n q) (hr : q.Extends e r) (he : p.blocks.size ≤ e)
    (hbuilt : r.Built strict) (hjoined : ∀ s, q.stmts.size ≤ s → r.IsJoined s) : Owned strict closed p b n r where
  built := hbuilt
  program := h.program.trans hr (.inr he)
  lt := h.lt
  new := h.new
  owner := hr.isOwner h.owner
  home := by
    rw [(hr.stmt n h.owner.1).block_eq]
    exact h.home
  parent := by
    rw [(hr.stmt n h.owner.1).parent_eq]
    exact h.parent
  last := by
    rw [hr.stmts b (Nat.lt_of_lt_of_le h.lt h.program.blocks_le)
      (Nat.ne_of_lt (Nat.lt_of_lt_of_le h.lt he))]
    exact h.last
  joined s hs hn := hr.isJoined hjoined (h.joined s hs hn)

/-- The block of the owner keeps the block that it continues in. -/
theorem next_run (h : Owned strict closed p b n q) (hr : q.Extends e r) (he : p.blocks.size ≤ e) :
    (r.block b).next = (q.block b).next :=
  hr.next b (Nat.lt_of_lt_of_le h.lt h.program.blocks_le) (Nat.ne_of_lt (Nat.lt_of_lt_of_le h.lt he))

/-- A further block of the owner or behind it. -/
theorem addBlock (h : Owned strict closed p b n q) (f : FuncId) {x : Option StmtId}
    (hx : ∀ s, x = some s → q.IsOwner s ∧ (q.block (q.stmt s).block).func = f) :
    Owned strict closed p b n (q.addBlock f x) :=
  h.run (.addBlock (.refl q.blocks.size q) f x) h.program.blocks_le (h.built.addBlock f x hx) fun _ hs =>
    isJoined_of_ge hs

/-- What the owner does may change, as long as it owns what it is given. -/
theorem setAction (h : Owned strict closed p b n q) (a : Action)
    (htemp : a.temp? = (q.stmt n).action.temp?) (hjump : a.jump? = (q.stmt n).action.jump?)
    (hloop : a.isLoop = (q.stmt n).action.isLoop) (hends : a.endsBlock = (q.stmt n).action.endsBlock)
    (hblocks : a.blocks ≠ []) (hdistinct : a.blocks.Nodup)
    (howned : ∀ d, d ∈ a.blocks → (q.block d).parent = some n ∧ (q.block d).prev = none)
    (hcopies : a.copies = []) :
    Owned strict closed p b n (q.modifyStmt n fun x => { x with action := a }) where
  built := h.built.setAction n a htemp hjump hloop hends ⟨fun _ => hblocks, fun _ => h.owner.blocks⟩
    hdistinct howned (by simp [hcopies])
  program := h.program.setAction n a fun hlt => absurd hlt (Nat.not_lt.mpr h.new)
  lt := h.lt
  new := h.new
  owner := by
    refine ⟨by simpa using h.owner.lt, ?_, ?_⟩
    · rw [q.stmt_modifyStmt_self n _ h.owner.lt]
      exact hblocks
    · rw [q.stmt_modifyStmt_of_eq (·.block) n n _ (by intro; rfl)]
      exact h.owner.home
  home := by
    rw [q.stmt_modifyStmt_of_eq (·.block) n n _ (by intro; rfl)]
    exact h.home
  parent := by
    rw [q.stmt_modifyStmt_of_eq (·.parent) n n _ (by intro; rfl)]
    exact h.parent
  last := h.last
  joined s hs hn hb := by
    rw [q.stmt_modifyStmt_of_eq (·.block) n s _ (by intro; rfl)]
    refine h.joined s hs hn ?_
    by_cases he : s = n
    · exact he ▸ h.owner.blocks
    · rwa [stmt_modifyStmt_of_ne _ _ _ _ he] at hb

/-- The block of the owner may be continued behind it. -/
theorem link (h : Owned strict closed p b n q) (hnext : (q.block b).next = none) (hprev : (q.block e).prev = none)
    (he : p.blocks.size ≤ e) (hlt : e < q.blocks.size)
    (hparent : (q.block e).parent = (q.block b).parent) (hfunc : (q.block e).func = (q.block b).func)
    (hfree : ∀ d s, s ∈ (q.block d).stmts → e ∉ (q.stmt s).action.blocks) :
    Owned strict True p b n (q.link b e) where
  built := h.built.link b e hnext hprev (Nat.lt_of_lt_of_le h.lt he) hlt hparent hfunc hfree
  program := h.program.link (.inl rfl) he (Nat.lt_of_lt_of_le h.lt h.program.blocks_le) hlt
  lt := h.lt
  new := h.new
  owner := ⟨h.owner.lt, h.owner.blocks, by
    rw [blocks_size_link]
    exact h.owner.home⟩
  home := h.home
  parent := h.parent
  last := by
    rw [q.block_link_of_eq (·.stmts) b e b (fun _ _ => rfl) fun _ _ => rfl]
    exact h.last
  joined s hs _ hb := by
    by_cases hs' : s = n
    · subst hs'
      exact ⟨e, by rwa [blocks_size_link], by rw [q.prev_link b e e hlt, if_pos rfl]; exact congrArg some h.home.symm⟩
    · obtain ⟨d, hd, hd'⟩ := h.joined s hs (.inl hs') hb
      refine ⟨d, by rwa [blocks_size_link], ?_⟩
      rw [q.prev_link b e d hlt, if_neg fun he => by rw [← he, hd'] at hprev; cases hprev]
      exact hd'

/-- A statement that stands nowhere may be added. -/
theorem addStmt (h : Owned strict closed p b n q) (x : Stmt) (hx : ∀ s, x.parent = some s → q.IsOwner s)
    (hc : x.action.copies = []) (hb : x.action.blocks = []) : Owned strict closed p b n (q.addStmt x) :=
  h.run (.addStmt (.refl q.blocks.size q) x) h.program.blocks_le (h.built.addStmt x hx hc (by simp [hb])) fun _ hs =>
    isJoined_of_addStmt hb hs rfl

theorem addSlot (h : Owned strict closed p b n q) (c : BlockId) (s : StmtId) (hc : c < q.blocks.size)
    (hs : s < q.stmts.size) (ht : (q.stmt s).action.temp? = some ⟨c, (q.block c).slots.size⟩) :
    Owned strict closed p b n (q.addSlot c s) :=
  h.run (.addSlot (.refl q.blocks.size q) hc s) h.program.blocks_le (h.built.addSlot c s hc hs ht) fun _ hs =>
    isJoined_of_ge hs

/-- A merging temp may get a further copy that stands nowhere. -/
theorem addCopy (h : Owned strict closed p b n q) {d : StmtId} {x : Stmt} (hd : q.definition? t = some d)
    (ha : (q.stmt d).action = .define u (.merge cs) m) (hx : ∀ s, x.parent = some s → q.IsOwner s)
    (hc : x.action.copies = []) (ht : x.action.temp? = none) (hb : x.action.blocks = []) :
    Owned strict closed p b n (q.addCopy d t cs x) := by
  obtain ⟨hlt, htemp⟩ := h.built.definition t d hd
  have hu : u = t := by
    rw [ha] at htemp
    exact Option.some.inj htemp
  exact h.run (.addCopy (.refl q.blocks.size q) hlt ha hu) h.program.blocks_le
    (h.built.addCopy hd ha hx hc ht hb) fun _ hs => isJoined_of_addCopy hb hs hlt rfl

/-- A statement that stands nowhere may be placed in front of the owner. -/
theorem insert (h : Owned strict closed p b n q) {x : StmtId} {y : Stmt} {front : List StmtId}
    (hfront : (q.block b).stmts = front ++ [n]) (hx : q.Fits b x y) (hblocks : y.action.blocks = [])
    (hends : y.action.endsBlock = false) :
    Owned strict closed p b n (q.modifyBlock b fun y => { y with stmts := front ++ [x, n] }) := by
  constructor
  case built =>
    -- What ended the block stays behind the new statement, which ends nothing itself.
    have hlast : ∀ {P : StmtId → Prop}, ¬P x →
        (∀ y, y ∈ (q.block b).stmts → P y → (q.block b).stmts.getLast? = some y) →
        ∀ y, y ∈ front ++ [x, n] → P y → (front ++ [x, n]).getLast? = some y := by
      intro P hPx hP y hy hPy
      have hy' : y ∈ (q.block b).stmts := by
        rw [hfront]
        rcases List.mem_append.mp hy with hy | hy
        · exact List.mem_append_left _ hy
        · rcases List.mem_cons.mp hy with rfl | hy
          · exact (hPx hPy).elim
          · exact List.mem_append_right _ hy
      have hlast := hP y hy' hPy
      rw [hfront, List.getLast?_concat] at hlast
      cases hlast
      simp
    refine h.built.setStmts hx _ ?_ ?_ ?_
    · rw [hfront]
      exact List.perm_middle
    · exact fun hst => hlast (by simp [hx.stmt, hends]) (h.built.ends hst b)
    · exact hlast (by simp [hx.stmt, hblocks]) (h.built.owners b)
  case program => exact h.program.setStmts (.inl rfl) _
  case lt => exact h.lt
  case new => exact h.new
  case owner => exact ⟨h.owner.lt, h.owner.blocks, by rw [blocks_size_modifyBlock]; exact h.owner.home⟩
  case home => exact h.home
  case parent => exact h.parent
  case last =>
    refine ⟨front ++ [x], ?_⟩
    rw [q.block_modifyBlock_self b _ hx.lt, List.append_assoc]
    rfl
  case joined =>
    intro s hs hn hb
    obtain ⟨d, hd, hprev⟩ := h.joined s hs hn hb
    refine ⟨d, by rwa [blocks_size_modifyBlock], Eq.trans ?_ hprev⟩
    exact q.block_modifyBlock_of_eq (·.prev) b d _ fun _ => rfl

/-- A statement that stands nowhere may be placed at the end of a new block that nothing ends. -/
theorem place (h : Owned strict closed p b n q) {x : StmtId} {y : Stmt} (he : p.blocks.size ≤ e) (hx : q.Fits e x y)
    (hopen : strict → q.Open e) (hplain : q.Plain e) : Owned strict closed p b n (q.place e x) :=
  h.run (.place (.refl e q) (.inl rfl) x) he (h.built.place hx hopen hplain) fun _ hs => isJoined_of_ge hs

end Owned

/-! ## Blocks that code can be added to -/

/-- A block at whose end code can be added. -/
structure Tail (strict : Prop) (p : Program) (f : FuncId) (x : Option StmtId) (b : BlockId) : Prop where
  lt : b < p.blocks.size
  func : (p.block b).func = f
  parent : (p.block b).parent = x
  next : (p.block b).next = none
  clear : strict → p.Open b
  plain : p.Plain b

namespace Tail

variable {strict : Prop} {p q : Program} {f : FuncId} {x : Option StmtId} {b e : BlockId}

/-- Code can be added to an empty block. -/
theorem of_empty (hlt : b < p.blocks.size) (hfunc : (p.block b).func = f)
    (hparent : (p.block b).parent = x) (hnext : (p.block b).next = none)
    (hstmts : (p.block b).stmts = []) : Tail strict p f x b :=
  ⟨hlt, hfunc, hparent, hnext, fun _ s hs => by simp [hstmts] at hs, fun s hs => by simp [hstmts] at hs⟩

/-- Code can be added to a new block. -/
theorem of_new (p : Program) (f : FuncId) (x : Option StmtId) : Tail strict (p.addBlock f x) f x p.blocks.size := by
  have hblock : (p.addBlock f x).block p.blocks.size = { func := f, parent := x } := by
    rw [block_addBlock, if_pos rfl]
  exact .of_empty (by simp) (by rw [hblock]) (by rw [hblock]) (by rw [hblock]) (by rw [hblock])

/-- Code elsewhere does not matter. -/
theorem run (h : Tail strict p f x b) (hp : p.Built strict) (hq : p.Extends e q) (he : b ≠ e) :
    Tail strict q f x b where
  lt := Nat.lt_of_lt_of_le h.lt hq.blocks_le
  func := (hq.func b h.lt).trans h.func
  parent := (hq.parent b h.lt).trans h.parent
  next := (hq.next b h.lt he).trans h.next
  clear hst s hs := by
    rw [hq.stmts b h.lt he] at hs
    rw [(hq.stmt s (hp.home b s hs).1).endsBlock_eq]
    exact h.clear hst s hs
  plain s hs := by
    rw [hq.stmts b h.lt he] at hs
    rw [(hq.stmt s (hp.home b s hs).1).blocks_eq]
    exact h.plain s hs

/-- Only what a block lists and what these statements do matters. -/
theorem of_agree (h : Tail strict p f x b) (hle : p.blocks.size ≤ q.blocks.size)
    (hfunc : (q.block b).func = (p.block b).func) (hparent : (q.block b).parent = (p.block b).parent)
    (hnext : (q.block b).next = (p.block b).next)
    (hstmts : ∀ s, s ∈ (q.block b).stmts → s ∈ (p.block b).stmts ∧
      (q.stmt s).action.endsBlock = (p.stmt s).action.endsBlock ∧
      ((p.stmt s).action.blocks = [] → (q.stmt s).action.blocks = []) ∨
      (q.stmt s).action.endsBlock = false) : Tail strict q f x b where
  lt := Nat.lt_of_lt_of_le h.lt hle
  func := hfunc.trans h.func
  parent := hparent.trans h.parent
  next := hnext.trans h.next
  clear hst s hs := by
    rcases hstmts s hs with ⟨hs, he, -⟩ | he
    · rw [he]
      exact h.clear hst s hs
    · exact he
  plain s hs := by
    rcases hstmts s hs with ⟨hs, -, hb⟩ | he
    · exact hb (h.plain s hs)
    · exact Action.blocks_of_not_endsBlock he

theorem addStmt (h : Tail strict p f x b) (hp : p.Built strict) (y : Stmt) :
    Tail strict (p.addStmt y) f x b :=
  h.of_agree (Nat.le_refl _) rfl rfl rfl fun s hs =>
    .inl ⟨hs, by rw [p.stmt_addStmt_of_lt y s (hp.home b s hs).1]; exact ⟨rfl, id⟩⟩

theorem addCopy (h : Tail strict p f x b) (hp : p.Built strict) {d : StmtId}
    {y : Stmt} (hd : d < p.stmts.size)
    (ha : (p.stmt d).action = .define u (.merge cs) m) : Tail strict (p.addCopy d t cs y) f x b := by
  refine h.of_agree (Nat.le_refl _) rfl rfl rfl fun s hs => .inl ⟨hs, ?_⟩
  rw [p.stmt_addCopy d t cs y s hd, if_neg (Nat.ne_of_lt (hp.home b s hs).1)]
  split
  · next hsd =>
    rw [hsd, ha]
    exact ⟨rfl, id⟩
  · exact ⟨rfl, id⟩

theorem reslot (h : Tail strict p f x b) (hq : p.Reslots q) : Tail strict q f x b := by
  refine h.of_agree (Nat.le_of_eq hq.blocks_size.symm) (hq.block (·.func) (fun _ _ => rfl) b)
    (hq.block (·.parent) (fun _ _ => rfl) b) (hq.block (·.next) (fun _ _ => rfl) b) fun y hy => .inl ?_
  rw [hq.block (·.stmts) fun _ _ => rfl] at hy
  rw [hq.stmt]
  exact ⟨hy, rfl, id⟩

theorem setStmts (h : Tail strict p f x b) (list : List StmtId) (he : b ≠ e) :
    Tail strict (p.modifyBlock e fun y => { y with stmts := list }) f x b := by
  have hblock := p.block_modifyBlock_of_ne e b (fun y => { y with stmts := list }) he
  refine h.of_agree (by simp) (by rw [hblock]) (by rw [hblock]) (by rw [hblock]) fun y hy => .inl ⟨?_, rfl, id⟩
  rwa [hblock] at hy

theorem place (h : Tail strict p f x b) (he : e < p.blocks.size) {y : StmtId}
    (hy : (p.stmt y).action.endsBlock = false) : Tail strict (p.place e y) f x b := by
  have hblock : ∀ {α : Type} (g : Block → α), (∀ x stmts, g { x with stmts } = g x) →
      g ((p.place e y).block b) = g (p.block b) := fun g hg => p.block_place_of_eq g e b y hg
  refine h.of_agree (by simp) (hblock (·.func) fun _ _ => rfl) (hblock (·.parent) fun _ _ => rfl)
    (hblock (·.next) fun _ _ => rfl) fun s hs => ?_
  rw [p.block_place e b y he] at hs
  split at hs
  · rcases List.mem_append.mp hs with hs | hs
    · exact .inl ⟨hs, rfl, id⟩
    · rw [List.mem_singleton.mp hs]
      exact .inr hy
  · exact .inl ⟨hs, rfl, id⟩

theorem addBlock (h : Tail strict p f x b) (g : FuncId) (y : Option StmtId) :
    Tail strict (p.addBlock g y) f x b := by
  have hblock : (p.addBlock g y).block b = p.block b := by
    rw [block_addBlock, if_neg (Nat.ne_of_lt h.lt)]
  refine h.of_agree (by simp) (by rw [hblock]) (by rw [hblock]) (by rw [hblock]) fun s hs => .inl ⟨?_, rfl, id⟩
  rwa [hblock] at hs

theorem addBlocks (h : Tail strict p f x b) (g : FuncId) (y : Option StmtId) (n : Nat) :
    Tail strict (p.addBlocks g y n) f x b := by
  induction n with
  | zero => exact h
  | succ n ih => exact ih.addBlock g y

theorem link (h : Tail strict p f x b) {c d : BlockId} (hc : c < p.blocks.size) (hb : b ≠ c) :
    Tail strict (p.link c d) f x b := by
  have hblock : ∀ {α : Type} (g : Block → α), (∀ x n, g { x with next := n } = g x) →
      (∀ x n, g { x with prev := n } = g x) → g ((p.link c d).block b) = g (p.block b) :=
    fun g hn hp => p.block_link_of_eq g c d b hn hp
  refine h.of_agree (by simp) (hblock (·.func) (fun _ _ => rfl) fun _ _ => rfl)
    (hblock (·.parent) (fun _ _ => rfl) fun _ _ => rfl) ?_ fun s hs => .inl ⟨?_, rfl, id⟩
  · rw [p.next_link c d b hc, if_neg hb]
  · rwa [hblock (·.stmts) (fun _ _ => rfl) fun _ _ => rfl] at hs

/-- An owner may change what it does. -/
theorem setAction (h : Tail strict p f x b) {n : StmtId} {a : Action}
    (ha : a.endsBlock = (p.stmt n).action.endsBlock) (hn : (p.stmt n).action.blocks ≠ []) :
    Tail strict (p.modifyStmt n fun y => { y with action := a }) f x b := by
  refine h.of_agree (Nat.le_refl _) rfl rfl rfl fun s hs => .inl ⟨hs, ?_⟩
  rw [stmt_modifyStmt]
  split
  · next hs =>
    rw [hs.1]
    exact ⟨ha, fun hb => (hn hb).elim⟩
  · exact ⟨rfl, id⟩

end Tail

/-- The block of an owner may be continued in a new one behind it. -/
theorem Owned.continue {strict closed : Prop} {p q : Program} {b : BlockId} {n : StmtId}
    (h : Owned strict closed p b n q) (hnext : (q.block b).next = none) {f : FuncId}
    (hf : (p.block b).func = f) :
    Owned strict True p b n ((q.addBlock f (q.block b).parent).link b q.blocks.size) ∧
    Tail strict ((q.addBlock f (q.block b).parent).link b q.blocks.size) f (p.block b).parent
      q.blocks.size := by
  have hlt : b < q.blocks.size := Nat.lt_of_lt_of_le h.lt h.program.blocks_le
  have hsize := q.blocks_size_addBlock f (q.block b).parent
  have hold : (q.addBlock f (q.block b).parent).block b = q.block b := by
    rw [block_addBlock, if_neg (Nat.ne_of_lt hlt)]
  have hnew : (q.addBlock f (q.block b).parent).block q.blocks.size =
      { func := f, parent := (q.block b).parent } := by
    rw [block_addBlock, if_pos rfl]
  have hstmts := fun d => q.block_addBlock_of_eq (·.stmts) f (q.block b).parent d rfl
  constructor
  · have hfunc : (q.block b).func = f := (h.program.func b h.lt).trans hf
    refine (h.addBlock f fun x hx => ⟨(h.built.blockOwner b x hx).1,
      (h.built.ownerFunc b x hx).trans hfunc⟩).link ?_ ?_ h.program.blocks_le ?_ ?_ ?_ ?_
    · rw [hold]
      exact hnext
    · rw [hnew]
    · rw [hsize]
      exact Nat.lt_succ_self _
    · rw [hnew, hold]
    · rw [hnew, hold]
      exact hfunc.symm
    · intro d s hs he
      rw [hstmts] at hs
      have hparent := (h.built.owned d s _ hs he).1
      rw [q.block_of_ge _ (Nat.le_refl _)] at hparent
      cases hparent
  · have htail : Tail strict (q.addBlock f (q.block b).parent) f (p.block b).parent q.blocks.size :=
      h.program.parent b h.lt ▸ .of_new q f _
    refine htail.link ?_ (Nat.ne_of_gt hlt)
    rw [hsize]
    exact Nat.lt_succ_of_lt hlt

end Program

end ScriptOptimizer.IR
