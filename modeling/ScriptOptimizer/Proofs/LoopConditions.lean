import ScriptOptimizer.Proofs.LoweringGrowth
import ScriptOptimizer.Proofs.WellFormedness

/-!
# Conditions of loops

The chain of blocks that computes the condition of a loop ends with the moves of the end of a round. The
condition has the value that the test gave unless its own register is copied into by these moves.
-/

namespace ScriptOptimizer.Lowering

open IR

variable {names : Names} {H : ScriptOptimizer.Stmt → Prop} {c : Site} {s s' t u : State} {pos : Position}
  {k : Option Frame} {frame : Frame} {x : Operand} {merges : TempId → Prop}

/-! ## Test and body -/

/-- The site does not matter beyond its function, its owner and its loop. -/
theorem Provided.of_site {d : Site} (h : Provided names c s) (hf : d.func = c.func)
    (hp : d.parent = c.parent) (hl : d.loop = c.loop) : Provided names d s :=
  ⟨h.ready.of_site hf hp hl, h.supplied, hl ▸ h.carried, hl ▸ h.distinct⟩

/-- Code that copies into no temps of a loop may stand in every loop. -/
theorem Growth.of_none (h : Growth names H (Mergeable none s) s t) : Growth names H (Mergeable k s) s t := by
  refine { h with adds := { h.adds with copies := fun b y m hy hnew hw => ?_ } }
  rcases h.adds.copies b y m hy hnew hw with hm | hm | ⟨f, hf, -⟩
  · exact .inl hm
  · exact .inr (.inl hm)
  · cases hf

/-- How expressions are lowered. -/
def LowersExprs (names : Names) (H : ScriptOptimizer.Stmt → Prop) (value : Part) (P : Expr → Prop) : Prop :=
  ∀ c e s x s', P e → Provided names c s → value c e names s = .ok (x, s') →
    Continues names H c none s s' ∧ s'.program.Readable x

/-- The body of a loop, with what follows it in every round. -/
theorem Provided.bodyStep {value : Part} {stmt : Site → ScriptOptimizer.Stmt → Lower Unit}
    {body : ScriptOptimizer.Stmt} {P : Expr → Prop} (h : Provided names c s) (hl : c.loop = some frame)
    (hvalue : LowersExprs names H value P) (hupdate : ∀ e, frame.update = some e → P e)
    (hbody : ∀ t t', Provided names c t → stmt c body names t = .ok ((), t') →
      Continues names H c (some frame) t t')
    (hs : bodyStep value stmt c frame body pos names s = .ok ((), s')) :
    Continues names H c (some frame) s s' := by
  obtain ⟨_, s1, e1, h1⟩ := bind_ok hs
  have k1 := hbody _ _ h e1
  obtain ⟨st, s2, e2, h2⟩ := bind_ok h1
  obtain ⟨rfl, rfl⟩ := get_ok e2
  split at h2
  · obtain ⟨-, rfl⟩ := pure_ok h2
    exact k1
  · obtain ⟨_, s3, e3, h3⟩ := bind_ok h2
    have k3 : Continues names H c (some frame) s s3 := by
      unfold runUpdate at e3
      cases hupd : frame.update with
      | none =>
        rw [hupd] at e3
        obtain ⟨-, rfl⟩ := pure_ok e3
        exact k1
      | some e =>
        rw [hupd] at e3
        obtain ⟨y, e4⟩ := discard_ok e3
        have hu := (hvalue { c with scope := frame.head } e _ _ _ (hupdate e hupd)
          (k1.provided.of_site rfl rfl rfl) e4).1
        exact k1.trans ⟨hu.provided.of_site rfl rfl rfl, hu.growth.of_none⟩
    exact k3.trans (k3.provided.sync hl h3)

/-- The code that the test of loop `n` was lowered to from an empty block on, with the moves of the end of
a round behind it. -/
theorem testCode {fuel : Nat} {y : ScriptOptimizer.Stmt} {test : Expr} {n : StmtId} {ids : List StmtId}
    (hy : H y) (htest : y.test? = some test) (hpos : (u.program.stmt n).pos = y.pos) (h : Provided names c s)
    (hl : c.loop = some frame) (hempty : (s.program.block s.block).stmts = [])
    (hexpr : expr fuel c test names s = .ok (x, t)) (g : Growth names H (Mergeable none s) s t)
    (hsync : Synced frame t u ids)
    (hsurvives : x.Survives (u.program.movesOf ids) ↔
      ∀ w, x = .temp w → ∀ y ∈ ids, ∀ v, (u.program.stmt y).action ≠ .copy w v)
    (hstay : ∀ y : Nat, y < t.program.stmts.size → (t.program.stmt y).Grown (u.program.stmt y))
    (hn : (u.program.stmt n).block < s.block)
    (hmerges : ∀ m ∈ frame.carried.map Prod.snd, m.block = (u.program.stmt n).block) :
    TestCode names H u.program
      (fun b => b = s.block ∨ s.program.blocks.size ≤ b ∧ b < t.program.blocks.size) n s.block x u.block
      (t.program.block t.block).stmts ids := by
  have hnone : ∀ b, b = s.block ∨ s.program.blocks.size ≤ b →
      (s.program.block b).stmts = [] ∧ (s.program.block b).next = none := by
    rintro b (rfl | hb)
    · exact ⟨hempty, h.ready.next⟩
    · rw [s.program.block_of_ge b hb]
      exact ⟨rfl, rfl⟩
  -- The statements of the region are new, or moves of the end of the round.
  have hnew : ∀ b y, b = s.block ∨ s.program.blocks.size ≤ b ∧ b < t.program.blocks.size →
      y ∈ (u.program.block b).stmts →
      (y ∈ (t.program.block b).stmts ∧ s.program.stmts.size ≤ y ∧
        (t.program.stmt y).Grown (u.program.stmt y)) ∨ y ∈ ids := by
    intro b y hb hmem
    rw [hsync.emits.stmts] at hmem
    rcases List.mem_append.mp hmem with hmem | hmem
    · refine .inl ⟨hmem, Nat.not_lt.mp fun hlt => ?_, hstay y (g.built.home b y hmem).1⟩
      have hold := g.adds.old b y hmem hlt
      rw [(hnone b (hb.imp_right And.left)).1] at hold
      cases hold
    · split at hmem
      · exact .inr hmem
      · cases hmem
  have hmoves : ∀ y ∈ ids, (u.program.stmt y).action.blocks = [] := by
    intro y hy
    have hmove := hsync.isMove y hy
    cases ha : (u.program.stmt y).action <;> simp [ha, Action.move?, Action.blocks] at hmove ⊢
  constructor
  case first_mem => exact .inl rfl
  case next_mem =>
    intro b d hb hd
    rw [hsync.emits.next] at hd
    obtain ⟨-, hlt, hprev, -⟩ := g.built.next b d hd
    refine .inr ⟨Nat.not_lt.mp fun hold => ?_, hlt⟩
    rw [g.moves.program.prev d hold] at hprev
    have hnext := h.ready.built.prev b d hprev
    rw [(hnone b (hb.imp_right And.left)).2] at hnext
    cases hnext
  case owned_mem =>
    intro b y d hb hmem hd
    rcases hnew b y hb hmem with ⟨hmem, hle, hgrown⟩ | hmem
    · rw [hgrown.blocks_eq] at hd
      obtain ⟨hparent, -⟩ := g.built.owned b y d hmem hd
      refine .inr ⟨Nat.not_lt.mp fun hold => ?_, ?_⟩
      · rw [g.moves.program.parent d hold] at hparent
        exact Nat.not_lt.mpr hle (h.ready.built.blockOwner d y hparent).1.1
      · refine Nat.not_le.mp fun hge => ?_
        rw [t.program.block_of_ge d hge] at hparent
        cases hparent
    · rw [hmoves y hmem] at hd
      cases hd
  case chain =>
    rw [hsync.emits.cursor]
    exact g.chain.congr fun _ _ _ hd => (hsync.emits.next _).trans hd
  case ends =>
    rw [hsync.emits.next, hsync.emits.cursor]
    exact g.next
  case stmts =>
    rw [hsync.emits.stmts, hsync.emits.cursor, if_pos rfl]
  case isMove => exact hsync.isMove
  case survives => exact hsurvives
  case home =>
    intro y hy m v hv
    exact hmerges m (hsync.copies y hy m v hv)
  case only =>
    intro b y m v hb hmem hv hm
    rcases hnew b y hb hmem with ⟨hmem, hle, hgrown⟩ | hmem
    · rcases g.adds.copies b y m hmem hle (by rw [hgrown.copy_iff.mp hv]; rfl) with h1 | h1 | ⟨f, hf, -⟩
      · rw [hm] at h1
        exact absurd h1.1 (Nat.ne_of_lt hn)
      · rw [hm] at h1
        exact absurd (Nat.lt_trans hn h.ready.lt) (Nat.not_lt.mpr h1)
      · cases hf
    · exact hmem
  case lowered =>
    rw [hpos]
    exact ⟨y, test, fuel, c, frame, s, t, hy, htest, rfl, hl, rfl, hempty, hexpr, hsync.emits.cursor.symm,
      by rw [hsync.emits.cursor], hsync.origin⟩

/-! ## Loops -/

/-- The merging temps of the bindings that a loop at the cursor carries, and those of the blocks of the
loop, may be copied into. -/
structure Carries (merges : TempId → Prop) (s : State) (frame : Frame) : Prop where
  carried : ∀ m ∈ frame.carried.map Prod.snd, m.block = s.block ∧ s.program.isMerge m = true ∧ merges m
  inside : ∀ m : TempId, s.program.blocks.size ≤ m.block → merges m
  nodup : (frame.carried.map Prod.snd).Nodup

/-- Which names are assigned does not matter. -/
theorem Carries.setAssigned {assigned : NameSet} (h : Carries merges s frame)
    (hm : Moves s { s with program := { s.program with assigned } }) :
    Carries merges { s with program := { s.program with assigned } } frame :=
  ⟨fun m hmem => ⟨(h.carried m hmem).1, hm.program.isMerge (h.carried m hmem).2.1, (h.carried m hmem).2.2⟩,
    h.inside, h.nodup⟩

/-- The state while the blocks of the loop at the cursor of `s` are filled: those of `empty` are still
without code, and the loop may lack its test. -/
structure Filling (names : Names) (H : ScriptOptimizer.Stmt → Prop) (merges : TempId → Prop) (s : State)
    (pos : Position) (lacks : StmtId → Prop) (empty : BlockId → Prop) (t : State) : Prop where
  adds : Adds names H lacks merges empty s.program t.program
  supplied : Supplied t.program t.values
  stmts_lt : s.program.stmts.size < t.program.stmts.size
  blocks_le : s.program.blocks.size ≤ t.program.blocks.size
  definition : s.program.KeepsDefinitions t.program
  grown : ∀ y, y < s.program.stmts.size → (s.program.stmt y).Grown (t.program.stmt y)
  home : (t.program.stmt s.program.stmts.size).block = s.block
  pos_eq : (t.program.stmt s.program.stmts.size).pos = pos
  stmts : ∀ d, empty d → s.program.blocks.size ≤ d ∧ d < t.program.blocks.size ∧
    (t.program.block d).stmts = []

/-- The loop has just been emitted. -/
theorem Provided.emitLoop {action : Action} {effects : List Effect} {n : Nat} {lacks : StmtId → Prop}
    (h : Provided names c s) (hreg : ∀ m, action.register? = some m → merges m)
    (htest : action.test? = none ∨ lacks s.program.stmts.size) :
    Filling names H merges s pos lacks
      (fun d => s.program.blocks.size ≤ d ∧ d < s.program.blocks.size + n)
      (s.emitLoop c action effects pos n) := by
  have hstmt : (s.emitLoop c action effects pos n).program.stmt s.program.stmts.size =
      { action, block := s.block, parent := c.parent, pos, effects } := by
    simp [State.emitLoop]
  constructor
  case adds =>
    refine .of_new [s.program.stmts.size] h.ready.built (fun d y hy => ?_) (fun y hy => ?_) fun y hy => ?_
    · exact (Program.mem_stmts_place (Program.mem_stmts_addBlocks hy)).imp_right List.mem_singleton.mpr
    · exact Nat.le_of_eq (List.mem_singleton.mp hy).symm
    · rw [List.mem_singleton.mp hy, hstmt]
      exact ⟨htest, hreg⟩
  case supplied => exact h.supplied.mono fun w d hw => by simpa [State.emitLoop] using hw
  case stmts_lt => simp [State.emitLoop]
  case blocks_le => simp [State.emitLoop]
  case definition => exact fun w d hw => by simpa [State.emitLoop] using hw
  case grown =>
    intro y hy
    refine .inl ?_
    rw [State.emitLoop, Program.stmt_addBlocks, Program.stmt_place, Program.stmt_addStmt,
      if_neg (Nat.ne_of_lt hy)]
  case home => rw [hstmt]
  case pos_eq => rw [hstmt]
  case stmts =>
    rintro d ⟨hle, hlt⟩
    refine ⟨hle, by simpa [State.emitLoop] using hlt, ?_⟩
    unfold State.emitLoop
    rw [Program.block_addBlocks_of_ge _ _ _ _ _ (by simpa using hle) (by simpa using hlt)]

namespace Filling

variable {lacks : StmtId → Prop} {empty empty' : BlockId → Prop} {e : BlockId}

/-- The merging temps of the carried bindings stay. -/
theorem isMerge (h : Filling names H merges s pos lacks empty t) (hc : Carries merges s frame) {m : TempId}
    (hm : m ∈ frame.carried.map Prod.snd) : t.program.isMerge m = true :=
  Program.isMerge_mono (hc.carried m hm).2.1 h.definition h.grown

/-- Code can be lowered at the start of a block of the loop. -/
theorem provided (h : Filling names H merges s pos lacks empty t) (hc : Carries merges s frame)
    (hr : Ready False names (c.inLoop frame) { t with block := e, terminated := false }) :
    Provided names (c.inLoop frame) { t with block := e, terminated := false } where
  ready := hr
  supplied := h.supplied
  carried f hf m hm := by
    cases hf
    exact h.isMerge hc hm
  distinct f hf := by
    cases hf
    exact hc.nodup

/-- Code fills a block of the loop. -/
theorem run (h : Filling names H merges s pos lacks empty t) (hb : t.program.Built False)
    (hc : Carries merges s frame)
    (g : Growth names H (Mergeable (some frame) { t with block := e, terminated := false })
      { t with block := e, terminated := false } u)
    (hu : Supplied u.program u.values) (he : empty e) (hempty : ∀ d, empty' d → empty d ∧ d ≠ e) :
    Filling names H merges s pos lacks empty' u := by
  obtain ⟨hle, hlt, -⟩ := h.stmts e he
  have hgrown := g.moves.program.stmt _ h.stmts_lt
  constructor
  case adds =>
    refine h.adds.trans g.adds hb ⟨Nat.le_of_lt h.stmts_lt, h.blocks_le⟩ g.moves.program.spares (.inl he)
      (fun m hm => ?_) (fun _ hl => hl.elim) (fun d hd => .inl (hempty d hd).1)
      fun d hd => .inr (.inl (h.stmts d (hempty d hd).1).2.1)
    rcases hm with hm | hm | ⟨f, hf, hm⟩
    · exact hc.inside m (Nat.le_trans hle (Nat.le_of_eq hm.1.symm))
    · exact hc.inside m (Nat.le_trans h.blocks_le hm)
    · cases hf
      exact (hc.carried m hm).2.2
  case supplied => exact hu
  case stmts_lt => exact Nat.lt_of_lt_of_le h.stmts_lt g.moves.program.stmts_le
  case blocks_le => exact Nat.le_trans h.blocks_le g.moves.program.blocks_le
  case definition => exact fun w d hw => g.moves.program.definition w d (h.definition w d hw)
  case grown => exact fun y hy => (h.grown y hy).trans (g.moves.program.stmt y (Nat.lt_trans hy h.stmts_lt))
  case home => exact hgrown.block_eq.trans h.home
  case pos_eq => exact hgrown.pos_eq.trans h.pos_eq
  case stmts =>
    intro d hd
    obtain ⟨hd, hne⟩ := hempty d hd
    obtain ⟨hle, hlt, hstmts⟩ := h.stmts d hd
    refine ⟨hle, Nat.lt_of_lt_of_le hlt g.moves.program.blocks_le, ?_⟩
    rw [g.moves.program.stmts d hlt hne]
    exact hstmts

/-- Nothing but the program and the values matter. -/
theorem of_eq (h : Filling names H merges s pos lacks empty t) (hp : u.program = t.program)
    (hv : Supplied t.program u.values) : Filling names H merges s pos lacks empty u := by
  obtain ⟨h1, -, h3, h4, h5, h6, h7, h8, h9⟩ := h
  rw [← hp] at h1 hv h3 h4 h5 h6 h7 h8 h9
  exact ⟨h1, hv, h3, h4, h5, h6, h7, h8, h9⟩

/-- The carried bindings get the values that their merging temps hold. -/
theorem reloaded (h : Filling names H merges s pos lacks empty t) (hc : Carries merges s frame) :
    Filling names H merges s pos lacks empty (t.reloaded frame) := by
  refine h.of_eq rfl (h.supplied.restored fun e he y hy => ?_)
  obtain ⟨e', he', rfl⟩ := List.mem_map.mp he
  cases hy
  exact Program.readable_of_isMerge (h.isMerge hc (List.mem_map.mpr ⟨e', he', rfl⟩))

/-- The body of the loop. -/
theorem body {value : Part} {stmt : Site → ScriptOptimizer.Stmt → Lower Unit}
    {body : ScriptOptimizer.Stmt} {P : Expr → Prop} (h : Filling names H merges s pos lacks empty t)
    (hc : Carries merges s frame) (hvalue : LowersExprs names H value P)
    (hupdate : ∀ e, frame.update = some e → P e)
    (hbody : ∀ t t', Provided names (c.inLoop frame) t →
      stmt (c.inLoop frame) body names t = .ok ((), t') →
        Continues names H (c.inLoop frame) (some frame) t t')
    (he : empty e) (hempty : ∀ d, empty' d → empty d ∧ d ≠ e)
    (hr : Ready False names (c.inLoop frame) { t with block := e, terminated := false })
    (hs : RunsBody names (Lowering.bodyStep value stmt (c.inLoop frame) frame body pos) e t u) :
    Filling names H merges s pos lacks empty' u := by
  obtain ⟨v, hrun, rfl⟩ := hs
  have k1 := (h.provided hc hr).bodyStep rfl hvalue hupdate hbody hrun
  exact (h.run hr.built hc k1.growth k1.provided.supplied he hempty).of_eq rfl k1.provided.supplied

/-- The loop is known by its condition. -/
theorem setTest (h : Filling names H merges s pos (· = s.program.stmts.size) empty t)
    (hb : t.program.Built False) (hlt : s.block < s.program.blocks.size) {a : Action}
    (hreg : a.register? = none)
    (hp : u.program = t.program.modifyStmt s.program.stmts.size fun x => { x with action := a })
    (hv : u.values = t.values) :
    Filling names H merges s pos (· = s.program.stmts.size) empty u := by
  have hdefinition : u.program.definition? = t.program.definition? := by rw [hp]; rfl
  have hn : (t.program.stmt s.program.stmts.size).block < s.program.blocks.size := h.home ▸ hlt
  constructor
  case adds =>
    rw [hp]
    exact h.adds.modifyStmt hb _ hn hreg (.inr rfl)
  case supplied =>
    rw [hv]
    exact h.supplied.mono fun w d hw => by rw [hdefinition]; exact hw
  case stmts_lt =>
    rw [hp, Program.stmts_size_modifyStmt]
    exact h.stmts_lt
  case blocks_le =>
    rw [hp]
    exact h.blocks_le
  case definition =>
    rw [Program.KeepsDefinitions, hdefinition]
    exact h.definition
  case grown =>
    intro y hy
    rw [hp, Program.stmt_modifyStmt_of_ne _ _ _ _ (Nat.ne_of_lt hy)]
    exact h.grown y hy
  case home =>
    rw [hp, Program.stmt_modifyStmt_of_eq _ (·.block) _ _ _ (by intro; rfl)]
    exact h.home
  case pos_eq =>
    rw [hp, Program.stmt_modifyStmt_of_eq _ (·.pos) _ _ _ (by intro; rfl)]
    exact h.pos_eq
  case stmts =>
    rw [hp]
    exact h.stmts

/-- The test of the loop. -/
theorem test {fuel : Nat} {y : ScriptOptimizer.Stmt} {test : Expr} {P : Expr → Prop} {behind : Bool}
    (h : Filling names H merges s y.pos (· = s.program.stmts.size) empty t) (hy : H y)
    (htest : y.test? = some test) (hP : P test) (hlt : s.block < s.program.blocks.size)
    (hc : Carries merges s frame) (hframe : frame.loop = s.program.stmts.size)
    (hvalue : LowersExprs names H (expr fuel) P) (he : empty e)
    (hempty : ∀ d, empty' d → empty d ∧ d ≠ e)
    (hr : Ready False names (c.inLoop frame) { t with block := e, terminated := false })
    (hs : RunsTest names (testStep (expr fuel) (c.inLoop frame) frame test y.pos) frame.loop behind e t u) :
    Filling names H merges s y.pos (fun _ => False) empty' u := by
  obtain ⟨cond, t2, hrun, hu⟩ := hs
  obtain ⟨_, t1, e1, h1⟩ := bind_ok hrun
  obtain ⟨_, _, e2, h2⟩ := bind_ok h1
  obtain ⟨rfl, rfl⟩ := pure_ok h2
  have hp := h.provided hc hr
  obtain ⟨k1, hcond⟩ := hvalue _ _ _ _ _ hP hp e1
  have k2 := k1.provided.sync (H := H) rfl e2
  obtain ⟨ids, hsync, -, hsurvives⟩ := sync_ok k1.provided.ready k1.provided.supplied e2
  obtain ⟨hle, hlt', hstmts⟩ := h.stmts e he
  have g := (k1.growth.of_none (k := some frame)).trans k2.growth (fun _ hm => hm.of_moves k1.growth.moves)
  have hfilled : Filling names H merges s y.pos (· = s.program.stmts.size) empty' t2 :=
    h.run hr.built hc g k2.provided.supplied he hempty
  have hset := hfilled.setTest (u := u) (a := testedAction behind e cond) g.built hlt rfl
    (by rw [hu, hframe]) (by rw [hu])
  have hmerges : ∀ m ∈ frame.carried.map Prod.snd, t1.program.Known (.temp m) := fun m hm =>
    Program.known_of_isMerge (k1.provided.carried frame rfl m hm)
  have hcode := testCode (n := s.program.stmts.size) hy htest hfilled.pos_eq hp rfl hstmts e1 k1.growth
    hsync ((hsurvives hc.nodup hmerges).1 cond hcond.known) k2.growth.moves.program.stmt
    (hfilled.home ▸ Nat.lt_of_lt_of_le hlt hle) fun m hm => (hc.carried m hm).1.trans hfilled.home.symm
  refine { hset with adds := hset.adds.provide fun first cond' hsome => ?_ }
  have haction : (u.program.stmt s.program.stmts.size).action = testedAction behind e cond := by
    rw [hu, hframe, Program.stmt_modifyStmt_self _ _ _ hfilled.stmts_lt]
  rw [haction] at hsome
  cases hsome
  refine ⟨_, _, _, _, hcode.congr (fun d _ => ?_) (fun d z hd hz => ?_) ?_ ?_, fun d hd => ?_⟩
  · rw [hu]
    exact ⟨rfl, rfl⟩
  · have hne : z ≠ s.program.stmts.size := by
      rintro rfl
      have hhome := (g.built.home d _ hz).2
      rw [hfilled.home] at hhome
      rcases hd with rfl | ⟨hd, -⟩
      · exact absurd (Nat.lt_of_lt_of_le hlt hle) (Nat.not_lt.mpr (Nat.le_of_eq hhome.symm))
      · exact absurd (Nat.lt_of_lt_of_le hlt h.blocks_le) (Nat.not_lt.mpr (hhome ▸ hd))
    rw [hu, hframe, Program.stmt_modifyStmt_of_ne _ _ _ _ hne]
    exact .refl _
  · rw [hset.home, hfilled.home]
  · rw [hset.pos_eq, hfilled.pos_eq]
  · have hsize : u.program.blocks.size = t1.program.blocks.size := by
      rw [hu]
      exact hsync.emits.size
    rw [hsize]
    rcases hd with rfl | ⟨hd, hd'⟩
    · exact ⟨hle, Nat.lt_of_lt_of_le hlt' k1.growth.moves.program.blocks_le, fun hd => (hempty _ hd).2 rfl⟩
    · exact ⟨Nat.le_trans h.blocks_le hd, hd', fun hd'' =>
        Nat.not_lt.mpr hd (h.stmts d (hempty d hd'').1).2.1⟩

end Filling

/-- Code goes on behind the loop. -/
theorem Filling.exitLoop {empty : BlockId → Prop}
    (h : Filling names H merges s pos (fun _ => False) empty t) (hs : Provided names c s)
    (hc : Carries merges s frame) (hframe : frame.loop = s.program.stmts.size)
    (hin : InLoop False names s.program s.block s.program.stmts.size t)
    (hexit : Lowering.exitLoop c frame names t = .ok ((), s')) :
    Provided names c s' ∧ Growth names H merges s s' := by
  obtain ⟨hr, hx, hle, hj⟩ := hin.exitLoop hframe hs.ready.parent hs.ready.func hs.ready.loop (fun h => h.elim) hexit
  have hs' := exitLoop_ok hexit
  rw [hframe, h.home] at hs'
  have hlt : s.block < t.program.blocks.size := Nat.lt_of_lt_of_le hs.ready.lt h.blocks_le
  constructor
  case left =>
    refine ⟨hr, ?_, fun f hf m hm => hx.isMerge (hs.carried f hf m hm), hs.distinct⟩
    rw [hs']
    exact (h.reloaded hc).supplied.mono fun w d hw => by simpa [State.continueFrom] using hw
  case right =>
    refine ⟨hr.built, hr.lt, hr.next, ⟨hx, .inr hle, hj⟩, .next (.head _) ?_, ?_⟩
    · rw [hs']
      exact onChain_continueFrom (s := t.reloaded frame) hlt
    · have hnone : Adds names H (fun _ => False) merges (fun _ => True) t.program s'.program := by
        rw [hs']
        exact adds_continueFrom (s := t.reloaded frame) hin.owned.built
      have hspares : t.program.Spares s.block s'.program := by
        rw [hs']
        exact spares_continueFrom (s := t.reloaded frame) hlt
      refine h.adds.trans hnone hin.owned.built ⟨Nat.le_of_lt h.stmts_lt, h.blocks_le⟩ hspares
        (.inr (.inl hs.ready.lt)) (fun _ hm => hm) (fun _ hl => hl) (fun d hd => .inr (.inr ?_))
        fun _ _ => .inl trivial
      rw [hd, hs']
      exact Nat.le_refl _

/-- The structure of the program is kept everywhere. -/
theorem keeps_structure (names : Names) (fuel : Nat) :
    KeepsStructure False names (expr fuel) (fun _ => True) ∧
    ∀ c y t t', Ready False names c t → stmt fuel c y names t = .ok ((), t') →
      Passed False names c t' ∧ Moves t t' := by
  have hobey := (structureLaw False names).obey_parts fuel
  refine ⟨fun c e s x s' _ hr hx => ?_, fun c y t t' hr ht => ?_⟩
  · have hk := ((hobey.value c e s (fun _ _ h => h.elim) hr).gives hx).1
    exact ⟨hk.inv, hk.step⟩
  · have hk := ((hobey.stmt c y t (fun _ _ h => h.elim) (fun _ _ _ _ _ _ h => h.elim) hr).gives ht).1
    exact ⟨hk.behind, hk.pass⟩

/-- The bindings that a loop carries get their merging temps. -/
theorem Provided.enterLoop {carried : List (BindingId × TempId)} (h : Provided names c s)
    (hr : Ready False names c s') (hm : Moves s s') (he : Enters s s' carried)
    (hf : frame.carried = carried) :
    Continues names H c k s s' ∧ Carries (Mergeable k s) s' frame := by
  obtain ⟨ids, hemits, hids⟩ := he.emits
  refine ⟨h.of_emits hr.toPlaced hm hemits (fun y hy => ⟨(hids y hy).1, fun m hm => ?_⟩)
    (he.supplied h.supplied), fun m hmem => ?_, fun m hm => .inr (.inl (hemits.size ▸ hm)), ?_⟩
  · exact .inl ((hids y hy).2 m hm)
  · rw [hf] at hmem
    obtain ⟨hblock, hnone, hknown⟩ := he.merges m hmem
    exact ⟨hblock.trans hemits.cursor.symm, hknown, .inl ⟨hblock, hnone⟩⟩
  · rw [hf]
    exact he.nodup

/-- A loop with a condition. -/
theorem Provided.testedLoop {fuel : Nat} {y : ScriptOptimizer.Stmt} {behind : Bool} {test : Expr}
    {body : ScriptOptimizer.Stmt} {update : Option Expr} {P : Expr → Prop} (h : Provided names c s)
    (hy : H y) (htest : y.test? = some test) (hvalue : LowersExprs names H (expr fuel) P) (hP : P test)
    (hupdate : ∀ e, update = some e → P e)
    (hbody : ∀ f, f.update = update → f.head = c.scope → ∀ t t', Provided names (c.inLoop f) t →
      stmt fuel (c.inLoop f) body names t = .ok ((), t') → Continues names H (c.inLoop f) (some f) t t')
    (hs : testedLoop (expr fuel) (stmt fuel) c behind test body update y.pos names s = .ok ((), s')) :
    Continues names H c k s s' := by
  obtain ⟨hkeeps, hkeeps'⟩ := keeps_structure names fuel
  obtain ⟨carried, s1, s2, s3, frame, henter, hr1, hm1, hframe, hin1, hruns, hin3, -, hexit⟩ :=
    h.ready.testedLoop_runs hkeeps trivial (fun _ _ => trivial) (fun f _ _ t t' => hkeeps' _ _ t t') hs
  have k0 := h.tracking (H := H) (k := k) {}
  obtain ⟨k1, hc⟩ : Continues names H c k { s with tracking := {} } s1 ∧ Carries (Mergeable k s) s1 frame :=
    k0.provided.enterLoop hr1 ⟨hm1.program, hm1.block, hm1.joined⟩ (enterLoop_enters k0.provided.ready henter)
      (by rw [hframe])
  have hloop : frame.loop = s1.program.stmts.size := by rw [hframe]
  have hupd : ∀ e, frame.update = some e → P e := by
    rw [hframe]
    exact hupdate
  have hbody' := hbody frame (by rw [hframe]) (by rw [hframe])
  have hstart : Filling names H (Mergeable k s) s1 y.pos (· = s1.program.stmts.size)
      (fun d => s1.program.blocks.size ≤ d ∧ d < s1.program.blocks.size + 2)
      (s1.emitLoop c (testedAction behind s1.program.blocks.size (.literal .undefined)) [] y.pos 2) :=
    k1.provided.emitLoop (by nofun) (.inr rfl)
  have hfirst : s1.program.blocks.size ≤ s1.program.blocks.size ∧
      s1.program.blocks.size < s1.program.blocks.size + 2 := by omega
  have hsecond : s1.program.blocks.size ≤ s1.program.blocks.size + 1 ∧
      s1.program.blocks.size + 1 < s1.program.blocks.size + 2 := by omega
  have hend : Filling names H (Mergeable k s) s1 y.pos (fun _ => False) (fun _ => False) s3 := by
    rcases hruns with ⟨-, ha, hrunTest, hb, hrunBody⟩ | ⟨-, hb, hrunBody, ha, hrunTest⟩
    · have hfilled : Filling names H (Mergeable k s) s1 y.pos (fun _ => False) (· = s1.program.blocks.size + 1) s2 :=
        hstart.test hy htest hP hr1.lt hc hloop hvalue hfirst
          (by rintro d rfl; exact ⟨hsecond, Nat.succ_ne_self _⟩) ha hrunTest
      exact hfilled.body hc hvalue hupd hbody' rfl nofun hb hrunBody
    · have hfilled : Filling names H (Mergeable k s) s1 y.pos (· = s1.program.stmts.size) (· = s1.program.blocks.size)
          s2 :=
        hstart.body hc hvalue hupd hbody' hsecond
          (by rintro d rfl; exact ⟨hfirst, (Nat.succ_ne_self _).symm⟩) hb hrunBody
      exact (hfilled.reloaded hc).test hy htest hP hr1.lt hc hloop hvalue rfl nofun ha hrunTest
  obtain ⟨hp, g⟩ := hend.exitLoop k1.provided hc hloop hin3 hexit
  exact ⟨hp, (k0.trans k1).growth.trans g (fun _ hm => hm)⟩

/-- A loop over keys or values writes no temp but that of a binding that it carries. -/
theorem mem_of_placeOfEach {of : Bool} {name : String} {b : Option BindingId} {object : Operand} {each : Place}
    {body : BlockId} {carried : List (BindingId × TempId)} {m : TempId}
    (heach : each = placeOfEach names name b carried)
    (hm : (Action.loop { head := .iterated of each object, body }).register? = some m) :
    m ∈ carried.map Prod.snd := by
  have hplace : each = .merge m := by
    cases each with
    | merge => exact congrArg Place.merge (Option.some.inj hm)
    | _ => cases hm
  rw [hplace] at heach
  unfold placeOfEach at heach
  split at heach
  · cases heach
  · split at heach
    · cases heach
    · split at heach
      · cases heach
      · split at heach
        · next hfind =>
          cases heach
          exact List.mem_map.mpr ⟨_, List.mem_of_find?_eq_some hfind, rfl⟩
        · cases heach

/-- A loop over keys or values. -/
theorem Provided.iteratedLoop {fuel : Nat} {of isDeclared : Bool} {name : String} {object : Operand}
    {body : ScriptOptimizer.Stmt} (h : Provided names c s)
    (hbody : ∀ f, f.update = none → ∀ t t', Provided names (c.inLoop f) t →
      stmt fuel (c.inLoop f) body names t = .ok ((), t') → Continues names H (c.inLoop f) (some f) t t')
    (hs : iteratedLoop (stmt fuel) c of isDeclared name object body pos names s = .ok ((), s')) :
    Continues names H c k s s' := by
  obtain ⟨hkeeps, hkeeps'⟩ := keeps_structure names fuel
  obtain ⟨declared, assigned, carried, s1, s2, s3, frame, each, -, henter, hr1, hm1, hassigned, hs2, hframe, heach,
    hready, hrun, hin3, -, hexit⟩ :=
    h.ready.iteratedLoop_runs (expr fuel) hkeeps (fun f _ t t' => hkeeps' _ _ t t') hs
  have k0 : Continues names H c k s { s with declared, tracking := {} } :=
    h.of_program rfl rfl (Nat.le_refl _) h.supplied
  obtain ⟨k1, hc1⟩ : Continues names H c k { s with declared, tracking := {} } s1 ∧ Carries (Mergeable k s) s1 frame :=
    k0.provided.enterLoop hr1 ⟨hm1.program, hm1.block, hm1.joined⟩ (enterLoop_enters k0.provided.ready henter)
      (by rw [hframe])
  obtain ⟨hr2, hm2⟩ := hr1.setAssigned hassigned
  have k2 : Continues names H c k s1 s2 := by
    rw [hs2]
    exact k1.provided.of_emits hr2.toPlaced hm2 (.of_eq rfl rfl rfl (fun _ => rfl) fun _ => rfl) nofun
      (k1.provided.supplied.mono hm2.program.definition)
  have hc : Carries (Mergeable k s) s2 frame := by
    rw [hs2]
    exact hc1.setAssigned hm2
  have hvalue : LowersExprs names H (expr fuel) fun _ => False := fun _ _ _ _ _ hfalse => hfalse.elim
  have hstart : Filling names H (Mergeable k s) s2 pos (fun _ => False)
      (fun d => s2.program.blocks.size ≤ d ∧ d < s2.program.blocks.size + 1)
      (s2.startIterated c of each object pos) :=
    k2.provided.emitLoop (fun m hm => (hc.carried m (hframe ▸ mem_of_placeOfEach heach hm)).2.2) (.inl rfl)
  have hfilled : Filling names H (Mergeable k s) s2 pos (fun _ => False) (fun _ => False) s3 :=
    hstart.body hc hvalue (by rw [hframe]; nofun) (hbody frame (by rw [hframe]))
      ⟨Nat.le_refl _, Nat.lt_succ_self _⟩ nofun hready hrun
  obtain ⟨hp, g⟩ := hfilled.exitLoop k2.provided hc (by rw [hframe]) hin3 hexit
  exact ⟨hp, ((k0.trans k1).trans k2).growth.trans g (fun _ hm => hm)⟩

/-! ## The law -/

/-- How code may change a state whose cursor stands at the end of a chain. -/
def Grows (names : Names) (H : ScriptOptimizer.Stmt → Prop) (k : Option Frame) (s t : State) : Prop :=
  s.program.KeepsDefinitions t.program ∧
  (s.program.Built False → s.block < s.program.blocks.size → (s.program.block s.block).next = none →
    Growth names H (Mergeable k s) s t)

namespace Grows

theorem refl (k : Option Frame) (s : State) : Grows names H k s s := ⟨fun _ _ hw => hw, .refl⟩

theorem trans (h : Grows names H k s t) (g : Grows names H k t u) : Grows names H k s u := by
  refine ⟨fun w d hw => g.1 w d (h.1 w d hw), fun hb hlt hnext => ?_⟩
  have h1 := h.2 hb hlt hnext
  exact h1.trans (g.2 h1.built h1.lt h1.next) (fun _ hm => hm.of_moves h1.moves)

theorem of_none (h : Grows names H none s t) : Grows names H k s t :=
  ⟨h.1, fun hb hlt hnext => (h.2 hb hlt hnext).of_none⟩

theorem growth (h : Grows names H k s t) (hp : Provided names c s) :
    Growth names H (Mergeable k s) s t :=
  h.2 hp.ready.built hp.ready.lt hp.ready.next

end Grows

theorem Continues.grows (h : Continues names H c k s t) : Grows names H k s t :=
  ⟨h.growth.moves.program.definition, fun _ _ _ => h.growth⟩

theorem Continues.keeps (h : Continues names H c k s t) : Provided names c t ∧ Grows names H k s t :=
  ⟨h.provided, h.grows⟩

/-- The loops with a condition satisfy a rule. -/
def LoopsIf (H : ScriptOptimizer.Stmt → Prop) : Node → Prop
  | .stmt y => y.test?.isSome = true → H y
  | _ => True

/-- A loop that is lowered satisfies the rule. -/
private theorem holds_of_all {y : ScriptOptimizer.Stmt} {test : Expr} (h : y.All (LoopsIf H))
    (htest : y.test? = some test) : H y := by
  have hself : LoopsIf H (.stmt y) := by
    cases y with
    | forLoop => exact h.forLoop.1
    | whileLoop | doWhile => exact h ⟨.plain, _⟩ (by simp [Walk.stmt, Walk.visit])
    | _ => cases htest
  exact hself (by rw [htest]; rfl)

/-- The law that loops keep the code of their tests. -/
def conditionLaw (names : Names) (H : ScriptOptimizer.Stmt → Prop) : CodeLaw names where
  Inv := Provided names
  Ok s x := s.program.Readable x
  Step := Grows names H none
  Tree _ _ e := e.All (LoopsIf H)
  Body _ _ f := f.All (LoopsIf H)
  Writes _ _ _ := True
  Code _ _ x := x.All (LoopsIf H)
  Binds _ _ _ := True
  Behind := Provided names
  Pass := Grows names H
  step_refl := .refl none
  step_trans := .trans
  ok_step h hx := hx.mono h.1
  ok_fixed {_ x} h := by
    cases x with
    | literal | receiver => exact Program.readable_of_temp? rfl rfl
    | _ => cases h
  tree_part h ha := h.part ha
  tree_function h := h.function
  tree_logical h := h.logicalAssign fun _ => trivial
  writes_assign _ _ := trivial
  writes_update _ _ := trivial
  inv_depth d := ⟨fun h => h.of_site rfl rfl rfl, fun h => h.of_site rfl rfl rfl⟩
  inv_values h := h.ready.values
  inv_tracking t h := (h.tracking t).keeps
  inv_shape u g h _ := (h.modifySlot u (fun y => { y with shape := g y.shape }) fun _ => rfl).keeps
  inv_newResult _ h hv := Continues.keeps (by exact h.of_program rfl rfl (by simp) (h.supplied.push hv))
  inv_setResult _ _ h hv := (h.setValue hv _).keeps
  temp h hv _ hs :=
    have hk := h.temp hv hs
    ⟨hk.1.provided, hk.1.grows, hk.2⟩
  emitMember h _ _ _ hs := (h.emit rfl rfl rfl rfl (by nofun) hs).keeps
  readName _ h hs := by
    obtain ⟨rfl, hx⟩ := readName_ok hs
    refine ⟨rfl, ?_⟩
    rcases hx with hx | ⟨b, -, -, -, hb⟩
    · cases hx <;> exact Program.readable_of_temp? rfl rfl
    · exact h.supplied b _ hb
  writeName _ _ h hv hs :=
    have hk := h.writeName hv hs
    ⟨hk.1.provided, hk.1.grows, hk.2⟩
  branch h _ _ _ harms hs := by
    have hk := h.branch (H := H) (k := none) (fun arm harm t t' ht hrun =>
      have hr := harms arm harm _ t t' ht (ht.supplied _) hrun
      ⟨hr.1, hr.2.1.growth ht⟩) hs
    exact ⟨hk.provided, hk.grows, hk.provided.supplied _⟩
  code_expr h he := all_exprsOf h trivial he
  code_stmt h hy := all_stmtsOf h hy
  code_declares _ _ _ := ⟨⟨{}, fun v hv => by
    simp only [Walk.expr, List.mem_singleton] at hv
    rw [hv]
    trivial⟩, trivial⟩
  code_function h := h.function
  code_binds _ _ := trivial
  body_stmt h _ hx := all_bodyOf h (fun _ => trivial) (fun _ _ => nofun) (fun _ _ _ => nofun) hx
  body_binds _ _ _ := trivial
  pass_refl := .refl
  pass_trans := .trans
  pass_step := .of_none
  behind_inv h := h
  inv_behind h _ := h
  inv_first _ h _ := h
  inv_scope _ h := h.of_site rfl rfl rfl
  behind_site hf hp hl _ h := h.of_site hf hp hl
  inv_declare r h := by
    cases r with
    | none => exact ⟨h, .refl none _⟩
    | some b => exact Continues.keeps (by exact h.of_program rfl rfl (Nat.le_refl _) h.supplied)
  initVar _ _ _ h hs := by
    obtain ⟨k, hx⟩ := h.temp (by simp) hs
    exact (k.trans (k.provided.setValue (fun y hy => Option.some.inj hy ▸ hx) _)).keeps
  directive h hs := (h.emit rfl rfl rfl rfl (by nofun) hs).keeps
  leave action ha h _ hs := (h.leave ha hs).keeps
  jump hl ha h hs := by
    rw [hl]
    exact (h.jumpTo hl ha hs).keeps
  declare _ _ h hs := (h.bindFunction hs).keeps
  enter h _ := h.enterFunction _ _
  exit h hb hp := (h.exitFunction hb (hp.growth (h.enterFunction _ 0))).keeps
  ifElse h _ harms hs := by
    have hk := h.branch (H := H) (fun arm harm t t' ht hrun =>
      have hr := harms arm harm t t' ht hrun
      ⟨hr.1, hr.2.growth ht⟩) hs
    exact ⟨hk.provided, hk.grows, fun _ => hk.provided⟩
  testedLoop hx htest hpos hv ht hupdate _ hbody h hs := by
    subst hpos
    exact (h.testedLoop (P := Expr.All (LoopsIf H)) (holds_of_all hx htest) htest
      (fun c e s x s' he hi hrun =>
        have hr := (hv c e s he hi).gives hrun
        ⟨⟨hr.1.inv, hr.1.step.growth hi⟩, hr.2⟩) ht hupdate
      (fun f hf hh t t' hi hrun =>
        have hr := hbody f hf hh t t' hi hrun
        ⟨hr.1, hr.2.growth hi⟩) hs).keeps
  iteratedLoop _ _ _ hbody h hs :=
    (h.iteratedLoop (fun f hf t t' hi hrun =>
      have hr := hbody f hf t t' hi hrun
      ⟨hr.1, hr.2.growth hi⟩) hs).keeps

/-- The start of a script. -/
theorem provided_ofScript (names : Names) : Provided names (.ofScript names) (.ofScript names) where
  ready := ready_ofScript False names
  supplied b x hx := by
    simp only [State.ofScript, initial, Array.getD_eq_getD_getElem?, Array.getElem?_map] at hx
    cases hb : names.bindings[b]? with
    | none =>
      rw [hb] at hx
      cases hx
    | some y =>
      simp only [hb, Option.map_some, Option.getD_some] at hx
      split at hx
      · cases hx
        exact Program.readable_of_temp? rfl rfl
      · cases hx
  carried f hf := by cases hf
  distinct f hf := by cases hf

/-- The loops of the program of a script keep the code of their tests. -/
theorem script_tests {y : Script} (hy : y.All (LoopsIf H))
    (h : script names y names (initial names) = .ok ((), t)) {b first : BlockId} {l : StmtId}
    {cond : Operand} (hl : l ∈ (t.program.block b).stmts)
    (htest : (t.program.stmt l).action.test? = some (first, cond)) :
    ∃ R last code rest, TestCode names H t.program R l first cond last code rest := by
  have hstart := provided_ofScript names
  have hpass := (conditionLaw names H).script_passes (fun x hx => hy.body hx) (fun _ _ _ => trivial)
    hstart h
  have hgrowth := hpass.pass.growth hstart
  obtain ⟨R, last, code, rest, hcode, -⟩ :=
    hgrowth.adds.loops b l first cond hl (Nat.zero_le l) id htest
  exact ⟨R, last, code, rest, hcode⟩

end ScriptOptimizer.Lowering

namespace ScriptOptimizer

open IR Lowering

/-- The blocks of a chain, with those that the statements in them own. -/
inductive IR.Program.Beneath (p : Program) (first : BlockId) : BlockId → Prop
  | first : Beneath p first first
  | next {b d : BlockId} : Beneath p first b → (p.block b).next = some d → Beneath p first d
  | owned {b d : BlockId} {y : StmtId} : Beneath p first b → y ∈ (p.block b).stmts →
      d ∈ (p.stmt y).action.blocks → Beneath p first d

theorem IR.Program.OnChain.beneath {p : Program} {first b : BlockId} (h : p.OnChain first b) :
    p.Beneath first b := by
  induction h with
  | head => exact .first
  | next _ hd ih => exact .next ih hd

/-- A statement that stands somewhere in a script. -/
def Script.Contains (r : Script) (y : Stmt) : Prop :=
  ∃ v ∈ Walk.script Walk.everywhere r, v.node = .stmt y

theorem Script.all_contains (r : Script) : r.All (LoopsIf r.Contains) := by
  intro v hv
  cases hn : v.node with
  | stmt y => exact fun _ => ⟨v, hv, hn⟩
  | _ => trivial

/-- A block of the region of a test. -/
theorem Lowering.TestCode.beneath_mem {names : Names} {H : Stmt → Prop} {p : Program}
    {R : BlockId → Prop} {l : StmtId} {first last d : BlockId} {cond : Operand} {code rest : List StmtId}
    (h : TestCode names H p R l first cond last code rest) (hd : p.Beneath first d) : R d := by
  induction hd with
  | first => exact h.first_mem
  | next _ hd ih => exact h.next_mem _ _ ih hd
  | owned _ hy hd ih => exact h.owned_mem _ _ _ ih hy hd

/-- The test of a loop ends with the code of its expression and the moves of the end of a round. Behind
these moves the condition has the value that the test gave, unless it is a temp of the block of the loop
that a statement of the test copies into; the temps that are copied into are those of the bindings that
the test reassigned. -/
theorem Script.lower_condition_survives_iff {x : Script} {p : Program} (h : x.lower = .ok p)
    {b first : BlockId} {l : StmtId} {cond : Operand} (hl : l ∈ (p.block b).stmts)
    (htest : (p.stmt l).action.test? = some (first, cond)) :
    ∃ r names last code rest, x.resolve = .ok (r, names) ∧
      LoweredTest names r.Contains (p.stmt l).pos cond first last code
        (fun m => ∃ y ∈ rest, ∃ v, (p.stmt y).action = .copy m v) ∧
      p.OnChain first last ∧ (p.block last).next = none ∧ (p.block last).stmts = code ++ rest ∧
      (∀ y ∈ rest, (p.stmt y).action.move?.isSome = true) ∧
      (cond.Survives (p.movesOf rest) ↔ ∀ m, cond = .temp m → m.block = (p.stmt l).block →
        ∀ d y v, p.Beneath first d → y ∈ (p.block d).stmts → (p.stmt y).action ≠ .copy m v) := by
  obtain ⟨r, names, t, hr, ht, rfl⟩ := x.lower_ok h
  obtain ⟨R, last, code, rest, hcode⟩ := script_tests r.all_contains ht hl htest
  refine ⟨r, names, last, code, rest, hr, hcode.lowered, hcode.chain, hcode.ends, hcode.stmts, hcode.isMove,
    hcode.survives.trans ⟨fun hnone m hm hblock d y v hd hy hv => ?_, fun hnone m hm y hy v hv => ?_⟩⟩
  · exact hnone m hm y (hcode.only d y m v (hcode.beneath_mem hd) hy hv hblock) v hv
  · refine hnone m hm (hcode.home y hy m v hv) last y v hcode.chain.beneath ?_ hv
    rw [hcode.stmts]
    exact List.mem_append_right _ hy

/-- A function with a loop that tests what it assigns to a variable only if the variable is true. -/
def assigningLoop : String := "function h() \x7b var x = f(); while (x && (x = g(x))) k(); return x; \x7d"

theorem Script.lower_condition_survives_assigningLoop :
    ∃ x p, Script.parse "" assigningLoop = .ok x ∧ x.lower = .ok p ∧ 4 ∈ (p.block 1).stmts ∧
      (p.stmt 4).action.test? = some (2, .temp ⟨2, 1⟩) ∧
      ∃ last code rest, p.OnChain 2 last ∧ (p.block last).next = none ∧
        (p.block last).stmts = code ++ rest ∧ (Operand.temp ⟨2, 1⟩).Survives (p.movesOf rest) := by
  obtain ⟨x, p, hx, h, hp⟩ := Script.exists_lower assigningLoop (fun _ p => 4 ∈ (p.block 1).stmts ∧
    (p.stmt 4).action.test? = some (2, .temp ⟨2, 1⟩) ∧ (p.stmt 4).block = 1) (by decide +kernel)
  obtain ⟨hl, htest, hblock⟩ := of_decide_eq_true hp
  obtain ⟨_, _, last, code, rest, -, -, hchain, hends, hstmts, -, hiff⟩ :=
    Script.lower_condition_survives_iff h hl htest
  refine ⟨x, p, hx, h, hl, htest, last, code, rest, hchain, hends, hstmts, hiff.mpr fun m hm hb => ?_⟩
  cases hm
  rw [hblock] at hb
  cases hb

/-- A function with a loop that tests the value which a variable had before the test reassigned it. -/
def overwritingLoop : String :=
  "function h() \x7b var x = f(), y = 0; while (y = x, x = g(), y) k(); return x; \x7d"

/-- The test ends with a copy into the register of its condition, which then has another value. -/
theorem Script.lower_overwritingLoop :
    ∃ x p, Script.parse "" overwritingLoop = .ok x ∧ x.lower = .ok p ∧ 8 ∈ (p.block 1).stmts ∧
      (p.stmt 8).action.test? = some (2, .temp ⟨1, 4⟩) ∧ (p.block 2).next = none ∧
      (p.block 2).stmts = [9] ++ [10, 11, 12] ∧
      (p.stmt 11).action = .copy ⟨1, 4⟩ (some (.temp ⟨2, 0⟩)) ∧
      ¬ (Operand.temp ⟨1, 4⟩).Survives (p.movesOf [10, 11, 12]) := by
  obtain ⟨x, p, hx, h, hp⟩ := Script.exists_lower overwritingLoop (fun _ p => 8 ∈ (p.block 1).stmts ∧
    (p.stmt 8).action.test? = some (2, .temp ⟨1, 4⟩) ∧ (p.block 2).next = none ∧
    (p.block 2).stmts = [9] ++ [10, 11, 12] ∧
    (p.stmt 11).action = .copy ⟨1, 4⟩ (some (.temp ⟨2, 0⟩)) ∧
    p.movesOf [10, 11, 12] =
      [(⟨2, 1⟩, .temp ⟨1, 4⟩), (⟨1, 4⟩, .temp ⟨2, 0⟩), (⟨1, 5⟩, .temp ⟨2, 1⟩)]) (by decide +kernel)
  obtain ⟨hl, htest, hnext, hstmts, hcopy, hmoves⟩ := of_decide_eq_true hp
  refine ⟨x, p, hx, h, hl, htest, hnext, hstmts, hcopy, fun hsurvives => ?_⟩
  -- Every register holds its own name, and the condition then reads another one.
  have hread := hsurvives TempId (fun _ => default) id
  rw [hmoves] at hread
  exact absurd hread (by decide)

end ScriptOptimizer
