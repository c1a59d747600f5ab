import ScriptOptimizer.Proofs.LoweringEmission
import ScriptOptimizer.Proofs.LoweringStructure

/-!
# What lowering adds

Code that is lowered from a cursor on adds copies into the merging temps of its block, of new blocks and
of the loop around it, and loops whose tests lie in new blocks that later code leaves alone.
-/

namespace ScriptOptimizer.IR

/-- The first block of the test of a loop, and its condition. -/
def Action.test? : Action → Option (BlockId × Operand)
  | .loop { head := .tested _ test cond, .. } => some (test, cond)
  | _ => none

/-- A loop with a test owns blocks. -/
theorem Action.test?_of_blocks {a : Action} (h : a.blocks = []) : a.test? = none := by
  cases a with
  | loop l =>
    obtain ⟨head, body, rounds⟩ := l
    cases head with
    | tested behind => cases behind <;> cases h
    | iterated => rfl
  | _ => rfl

/-- Further copies do not change the test of a loop. -/
theorem Stmt.Grown.test?_eq {x y : Stmt} (h : x.Grown y) : y.action.test? = x.action.test? :=
  h.eq_of (·.action.test?) fun _ _ _ _ _ hx => by rw [hx]; rfl

namespace Program

variable {p q : Program} {a b e : BlockId}

theorem mem_stmts_addBlock {f : FuncId} {x : Option StmtId} {y : StmtId}
    (h : y ∈ ((p.addBlock f x).block b).stmts) : y ∈ (p.block b).stmts := by
  rw [block_addBlock] at h
  split at h
  · cases h
  · exact h

theorem mem_stmts_addBlocks {f : FuncId} {x : Option StmtId} {n : Nat} {y : StmtId}
    (h : y ∈ ((p.addBlocks f x n).block b).stmts) : y ∈ (p.block b).stmts := by
  induction n with
  | zero => exact h
  | succ n ih => exact ih (mem_stmts_addBlock h)

theorem mem_stmts_place {x y : StmtId} (h : y ∈ ((p.place a x).block b).stmts) :
    y ∈ (p.block b).stmts ∨ y = x := by
  rw [place_eq, block_modifyBlock] at h
  split at h
  · next hb =>
    rw [hb.1]
    exact (List.mem_append.mp h).imp_right List.mem_singleton.mp
  · exact .inl h

theorem OnChain.trans (h : p.OnChain a b) (k : p.OnChain b e) : p.OnChain a e := by
  induction k with
  | head => exact h
  | next _ hd ih => exact .next ih hd

/-- A chain stays while its blocks go on as they do. -/
theorem OnChain.congr (h : p.OnChain a b)
    (hq : ∀ c d, p.OnChain a c → (p.block c).next = some d → (q.block c).next = some d) : q.OnChain a b := by
  induction h with
  | head => exact .head a
  | next hc hd ih => exact .next ih (hq _ _ hc hd)

/-- A chain stays while the program is extended from a block that nothing follows. -/
theorem OnChain.extend (h : p.OnChain a b) (hx : p.Extends e q) (he : (p.block e).next = none) :
    q.OnChain a b := by
  refine h.congr fun c d _ hd => ?_
  rw [hx.next c (p.lt_of_next hd)]
  · exact hd
  · rintro rfl
    rw [he] at hd
    cases hd

end Program

end ScriptOptimizer.IR

namespace ScriptOptimizer.Lowering

open IR

variable {names : Names} {H : ScriptOptimizer.Stmt → Prop}

/-! ## The test of a loop -/

variable {thenArm : Site → Lower Unit} {elseArm : Option (Site → Lower Unit)}

/-- How the test of a loop was lowered from an empty block on: the operand that it gave, the block and
the code in which it ended, and the merging temps whose bindings it reassigned. -/
def LoweredTest (names : Names) (H : ScriptOptimizer.Stmt → Prop) (pos : Position) (cond : Operand)
    (first last : BlockId) (code : List StmtId) (copied : TempId → Prop) : Prop :=
  ∃ x test fuel c frame s t, H x ∧ x.test? = some test ∧ x.pos = pos ∧ c.loop = some frame ∧
    s.block = first ∧ (s.program.block first).stmts = [] ∧
    expr fuel c test names s = .ok (cond, t) ∧ t.block = last ∧ (t.program.block last).stmts = code ∧
    ∀ m, copied m ↔ Reassigned frame.carried t m

/-- The code of the test of loop `l`: it lies in a region of blocks of its own, and ends with the moves
`rest`, the only ones of the region that copy into temps of the block of the loop. -/
structure TestCode (names : Names) (H : ScriptOptimizer.Stmt → Prop) (p : Program)
    (R : BlockId → Prop) (l : StmtId) (first : BlockId) (cond : Operand) (last : BlockId)
    (code rest : List StmtId) : Prop where
  first_mem : R first
  next_mem : ∀ b d, R b → (p.block b).next = some d → R d
  owned_mem : ∀ b y d, R b → y ∈ (p.block b).stmts → d ∈ (p.stmt y).action.blocks → R d
  chain : p.OnChain first last
  ends : (p.block last).next = none
  stmts : (p.block last).stmts = code ++ rest
  isMove : ∀ y ∈ rest, (p.stmt y).action.move?.isSome = true
  survives : cond.Survives (p.movesOf rest) ↔
    ∀ m, cond = .temp m → ∀ y ∈ rest, ∀ v, (p.stmt y).action ≠ .copy m v
  home : ∀ y ∈ rest, ∀ m v, (p.stmt y).action = .copy m v → m.block = (p.stmt l).block
  only : ∀ b y m v, R b → y ∈ (p.block b).stmts → (p.stmt y).action = .copy m v →
    m.block = (p.stmt l).block → y ∈ rest
  lowered : LoweredTest names H (p.stmt l).pos cond first last code fun m =>
    ∃ y ∈ rest, ∃ v, (p.stmt y).action = .copy m v

namespace TestCode

variable {p q : Program} {R : BlockId → Prop} {l : StmtId} {first last : BlockId} {cond : Operand}
  {code rest : List StmtId}

theorem chain_mem (h : TestCode names H p R l first cond last code rest) {b : BlockId}
    (hb : p.OnChain first b) : R b := by
  induction hb with
  | head => exact h.first_mem
  | next _ hd ih => exact h.next_mem _ _ ih hd

/-- The code of a test stays what it is while its blocks stay as they are. -/
theorem congr (h : TestCode names H p R l first cond last code rest)
    (hblock : ∀ b, R b → (q.block b).stmts = (p.block b).stmts ∧ (q.block b).next = (p.block b).next)
    (hstmt : ∀ b y, R b → y ∈ (p.block b).stmts → (p.stmt y).Grown (q.stmt y))
    (hl : (q.stmt l).block = (p.stmt l).block) (hpos : (q.stmt l).pos = (p.stmt l).pos) :
    TestCode names H q R l first cond last code rest := by
  have hlast := h.chain_mem h.chain
  have hrest : ∀ y ∈ rest, (p.stmt y).Grown (q.stmt y) := fun y hy =>
    hstmt last y hlast (by rw [h.stmts]; exact List.mem_append_right _ hy)
  constructor
  case first_mem => exact h.first_mem
  case next_mem =>
    intro b d hb hd
    rw [(hblock b hb).2] at hd
    exact h.next_mem b d hb hd
  case owned_mem =>
    intro b y d hb hy hd
    rw [(hblock b hb).1] at hy
    rw [(hstmt b y hb hy).blocks_eq] at hd
    exact h.owned_mem b y d hb hy hd
  case chain => exact h.chain.congr fun _ _ hc hd => (hblock _ (h.chain_mem hc)).2.trans hd
  case ends => exact (hblock last hlast).2.trans h.ends
  case stmts => exact (hblock last hlast).1.trans h.stmts
  case isMove =>
    intro y hy
    rw [(hrest y hy).move?_eq]
    exact h.isMove y hy
  case survives =>
    have hmoves : q.movesOf rest = p.movesOf rest :=
      List.filterMap_congr fun y hy => (hrest y hy).move?_eq
    rw [hmoves, h.survives]
    refine forall_congr' fun m => forall_congr' fun _ => forall_congr' fun y => ?_
    refine forall_congr' fun hy => forall_congr' fun v => ?_
    exact not_congr (hrest y hy).copy_iff.symm
  case home =>
    intro y hy m v hv
    rw [hl]
    exact h.home y hy m v ((hrest y hy).copy_iff.mp hv)
  case only =>
    intro b y m v hb hy hv hm
    rw [(hblock b hb).1] at hy
    rw [hl] at hm
    exact h.only b y m v hb hy ((hstmt b y hb hy).copy_iff.mp hv) hm
  case lowered =>
    have hcopied : (fun m => ∃ y ∈ rest, ∃ v, (q.stmt y).action = .copy m v) =
        fun m => ∃ y ∈ rest, ∃ v, (p.stmt y).action = .copy m v := by
      refine funext fun m => propext (exists_congr fun y => and_congr_right fun hy => ?_)
      exact exists_congr fun v => (hrest y hy).copy_iff
    rw [hcopied, hpos]
    exact h.lowered

end TestCode

/-! ## What lowering adds -/

/-- What lowering from program `p` to `q` adds: copies into some merging temps, and loops whose tests
lie in new blocks apart from some others. Some loops may still lack their test. -/
structure Adds (names : Names) (H : ScriptOptimizer.Stmt → Prop) (lacks : StmtId → Prop)
    (merges : TempId → Prop) (apart : BlockId → Prop) (p q : Program) : Prop where
  old : ∀ b y, y ∈ (q.block b).stmts → y < p.stmts.size → y ∈ (p.block b).stmts
  copies : ∀ b y m, y ∈ (q.block b).stmts → p.stmts.size ≤ y → (q.stmt y).action.register? = some m →
    merges m
  loops : ∀ b l first cond, l ∈ (q.block b).stmts → p.stmts.size ≤ l → ¬ lacks l →
    (q.stmt l).action.test? = some (first, cond) →
    ∃ R last code rest, TestCode names H q R l first cond last code rest ∧
      ∀ d, R d → p.blocks.size ≤ d ∧ d < q.blocks.size ∧ ¬ apart d

namespace Adds

variable {lacks lacks' : StmtId → Prop} {merges merges' : TempId → Prop}
  {apart apart' apart'' : BlockId → Prop} {p q r : Program} {e : BlockId}

/-- Where some statements are added that are no loops with a condition, or lack their tests. -/
theorem of_new (ids : List StmtId) {strict : Prop} (hp : p.Built strict)
    (hmem : ∀ b y, y ∈ (q.block b).stmts → y ∈ (p.block b).stmts ∨ y ∈ ids)
    (hids : ∀ y ∈ ids, p.stmts.size ≤ y)
    (hacts : ∀ y ∈ ids, ((q.stmt y).action.test? = none ∨ lacks y) ∧
      ∀ m, (q.stmt y).action.register? = some m → merges m) :
    Adds names H lacks merges apart p q := by
  have hnew : ∀ b y, y ∈ (q.block b).stmts → p.stmts.size ≤ y → y ∈ ids := by
    intro b y hy hle
    rcases hmem b y hy with hy | hy
    · exact absurd (hp.home b y hy).1 (Nat.not_lt.mpr hle)
    · exact hy
  constructor
  case old =>
    intro b y hy hlt
    rcases hmem b y hy with hy | hy
    · exact hy
    · exact absurd hlt (Nat.not_lt.mpr (hids y hy))
  case copies =>
    intro b y m hy hle hm
    exact (hacts y (hnew b y hy hle)).2 m hm
  case loops =>
    intro b l first cond hl hle hlack htest
    rcases (hacts l (hnew b l hl hle)).1 with hnone | hlacks
    · rw [hnone] at htest
      cases htest
    · exact (hlack hlacks).elim

private theorem not_apart {P : Prop} {d m n : Nat} (h : m ≤ d ∧ d < n ∧ ¬ P) : ¬ (P ∨ d < m ∨ n ≤ d) := by
  rintro (hP | hd | hd)
  · exact h.2.2 hP
  · exact Nat.not_lt.mpr h.1 hd
  · exact Nat.not_lt.mpr hd h.2.1

/-- Lowering goes on from a block that is apart from the tests there are. -/
theorem trans {strict : Prop} (h : Adds names H lacks merges apart p q)
    (k : Adds names H lacks' merges' apart' q r) (hq : q.Built strict)
    (hpq : p.stmts.size ≤ q.stmts.size ∧ p.blocks.size ≤ q.blocks.size) (hx : q.Spares e r)
    (he : apart e ∨ e < p.blocks.size ∨ q.blocks.size ≤ e) (hm : ∀ m, merges' m → merges m)
    (hlacks : ∀ l, lacks' l → lacks l)
    (h1 : ∀ d, apart'' d → apart d ∨ d < p.blocks.size ∨ q.blocks.size ≤ d)
    (h2 : ∀ d, apart'' d → apart' d ∨ d < q.blocks.size ∨ r.blocks.size ≤ d) :
    Adds names H lacks merges apart'' p r := by
  constructor
  case old =>
    intro b y hy hlt
    exact h.old b y (k.old b y hy (Nat.lt_of_lt_of_le hlt hpq.1)) hlt
  case copies =>
    intro b y m hy hnew hw
    by_cases hlt : y < q.stmts.size
    · exact h.copies b y m (k.old b y hy hlt) hnew ((hx.stmt y hlt).register?_eq ▸ hw)
    · exact hm m (k.copies b y m hy (Nat.not_lt.mp hlt) hw)
  case loops =>
    intro b l first cond hl hnew hlack htest
    by_cases hlt : l < q.stmts.size
    · have hgrown := hx.stmt l hlt
      obtain ⟨R, last, code, rest, hcode, hR⟩ :=
        h.loops b l first cond (k.old b l hl hlt) hnew hlack (hgrown.test?_eq ▸ htest)
      have hne : ∀ d, R d → d ≠ e := by
        rintro d hd rfl
        exact not_apart (hR d hd) he
      refine ⟨R, last, code, rest, hcode.congr (fun d hd => ?_) (fun d y hd hy => ?_) hgrown.block_eq
        hgrown.pos_eq, fun d hd => ⟨(hR d hd).1, Nat.lt_of_lt_of_le (hR d hd).2.1 hx.blocks_le,
          fun hd' => not_apart (hR d hd) (h1 d hd')⟩⟩
      · exact ⟨hx.stmts d (hR d hd).2.1 (hne d hd), hx.next d (hR d hd).2.1 (hne d hd)⟩
      · exact hx.stmt y (hq.home d y hy).1
    · obtain ⟨R, last, code, rest, hcode, hR⟩ := k.loops b l first cond hl
        (Nat.not_lt.mp hlt) (fun hl' => hlack (hlacks l hl')) htest
      exact ⟨R, last, code, rest, hcode, fun d hd => ⟨Nat.le_trans hpq.2 (hR d hd).1, (hR d hd).2.1,
        fun hd' => not_apart (hR d hd) (h2 d hd')⟩⟩

/-- Fewer blocks need to be apart. -/
theorem weaken (h : Adds names H lacks merges apart p q) (ha : ∀ d, apart' d → apart d) :
    Adds names H lacks merges apart' p q where
  old := h.old
  copies := h.copies
  loops b l first cond hl hnew hlack htest := by
    obtain ⟨R, last, code, rest, hcode, hR⟩ := h.loops b l first cond hl hnew hlack htest
    exact ⟨R, last, code, rest, hcode, fun d hd =>
      ⟨(hR d hd).1, (hR d hd).2.1, fun hd' => (hR d hd).2.2 (ha d hd')⟩⟩

/-- A statement outside the new blocks is changed into one that is no loop with a condition, unless it may
still lack its test. -/
theorem modifyStmt {strict : Prop} (h : Adds names H lacks merges apart p q) (hq : q.Built strict)
    (n : StmtId) {a : Action} (hn : (q.stmt n).block < p.blocks.size) (hreg : a.register? = none)
    (htest : a.test? = none ∨ lacks n) :
    Adds names H lacks merges apart p (q.modifyStmt n fun x => { x with action := a }) := by
  constructor
  case old => exact h.old
  case copies =>
    intro b y m hy hnew hm
    rw [Program.stmt_modifyStmt] at hm
    split at hm
    · simp [hreg] at hm
    · exact h.copies b y m hy hnew hm
  case loops =>
    intro b l first cond hl hnew hlack hsome
    by_cases hln : l = n
    · subst hln
      have ha := q.stmt_modifyStmt_self l (fun x => { x with action := a }) (hq.home b l hl).1
      rw [ha] at hsome
      rcases htest with htest | htest
      · rw [htest] at hsome
        cases hsome
      · exact (hlack htest).elim
    · rw [Program.stmt_modifyStmt_of_ne _ _ _ _ hln] at hsome
      obtain ⟨R, last, code, rest, hcode, hR⟩ := h.loops b l first cond hl hnew hlack hsome
      refine ⟨R, last, code, rest, hcode.congr (fun d hd => ⟨rfl, rfl⟩) (fun d y hd hy => ?_) ?_ ?_, hR⟩
      · have hyn : y ≠ n := by
          rintro rfl
          rw [(hq.home d y hy).2] at hn
          exact Nat.not_lt.mpr (hR d hd).1 hn
        rw [Program.stmt_modifyStmt_of_ne _ _ _ _ hyn]
        exact .refl _
      · rw [Program.stmt_modifyStmt_of_ne _ _ _ _ hln]
      · rw [Program.stmt_modifyStmt_of_ne _ _ _ _ hln]

/-- A loop that lacked its test has got it. -/
theorem provide {n : StmtId} (h : Adds names H (· = n) merges apart p q)
    (hn : ∀ first cond, (q.stmt n).action.test? = some (first, cond) →
      ∃ R last code rest, TestCode names H q R n first cond last code rest ∧
        ∀ d, R d → p.blocks.size ≤ d ∧ d < q.blocks.size ∧ ¬ apart d) :
    Adds names H (fun _ => False) merges apart p q where
  old := h.old
  copies := h.copies
  loops b l first cond hl hnew _ htest := by
    by_cases hln : l = n
    · subst hln
      exact hn first cond htest
    · exact h.loops b l first cond hl hnew hln htest

end Adds

/-! ## Growth -/

/-- The merging temps that code from a state on may copy into, by the loop around it. -/
def Mergeable (k : Option Frame) (s : State) (m : TempId) : Prop :=
  m.block = s.block ∧ s.program.definition? m = none ∨ s.program.blocks.size ≤ m.block ∨
    ∃ f, k = some f ∧ m ∈ f.carried.map Prod.snd

/-- Code that starts in a new block may copy into the temps of new blocks. -/
theorem Mergeable.of_new {k : Option Frame} {s t : State} {m : TempId} (h : Mergeable k t m)
    (hb : s.program.blocks.size ≤ t.block) (hle : s.program.blocks.size ≤ t.program.blocks.size) :
    Mergeable k s m := by
  rcases h with h | h | h
  · exact .inr (.inl (h.1 ▸ hb))
  · exact .inr (.inl (Nat.le_trans hle h))
  · exact .inr (.inr h)

theorem Mergeable.of_moves {k : Option Frame} {s t : State} {m : TempId} (h : Mergeable k t m)
    (hm : Moves s t) : Mergeable k s m := by
  rcases h with h | h | h
  · rcases hm.block with hb | hb
    · exact .inl ⟨h.1.trans hb, Program.undefined_of_mono hm.program.definition h.2⟩
    · exact .inr (.inl (h.1 ▸ hb))
  · exact .inr (.inl (Nat.le_trans hm.program.blocks_le h))
  · exact .inr (.inr h)

/-- How code from a state on may change it. -/
structure Growth (names : Names) (H : ScriptOptimizer.Stmt → Prop) (merges : TempId → Prop) (s t : State) :
    Prop where
  built : t.program.Built False
  lt : t.block < t.program.blocks.size
  next : (t.program.block t.block).next = none
  moves : Moves s t
  chain : t.program.OnChain s.block t.block
  adds : Adds names H (fun _ => False) merges (· = t.block) s.program t.program

/-- The cursor stands at a site, and the values of the bindings can be read, also those that the loop
around the site carries in merging temps of their own. -/
structure Provided (names : Names) (c : Site) (s : State) : Prop where
  ready : Ready False names c s
  supplied : Supplied s.program s.values
  carried : ∀ f, c.loop = some f → ∀ m ∈ f.carried.map Prod.snd, s.program.isMerge m = true
  distinct : ∀ f, c.loop = some f → (f.carried.map Prod.snd).Nodup

/-- Code at a site may go on in another state. -/
structure Continues (names : Names) (H : ScriptOptimizer.Stmt → Prop) (c : Site) (k : Option Frame)
    (s t : State) : Prop where
  provided : Provided names c t
  growth : Growth names H (Mergeable k s) s t

variable {c : Site} {s s' t u : State} {pos : Position} {k : Option Frame} {x : Operand}

/-- Without the rules about the ends of blocks code may run everywhere. -/
theorem Placed.ready (h : Placed False names c s) : Ready False names c s := ⟨h, nofun, nofun⟩

namespace Growth

variable {merges merges' : TempId → Prop}

theorem refl (hb : s.program.Built False) (hlt : s.block < s.program.blocks.size)
    (hnext : (s.program.block s.block).next = none) : Growth names H merges s s where
  built := hb
  lt := hlt
  next := hnext
  moves := .refl s
  chain := .head _
  adds := .of_new [] hb (fun _ _ hy => .inl hy) nofun nofun

theorem trans (h : Growth names H merges s t) (g : Growth names H merges' t u)
    (hm : ∀ m, merges' m → merges m) : Growth names H merges s u where
  built := g.built
  lt := g.lt
  next := g.next
  moves := h.moves.trans g.moves
  chain := (h.chain.extend g.moves.program h.next).trans g.chain
  adds := by
    refine h.adds.trans g.adds h.built ⟨h.moves.program.stmts_le, h.moves.program.blocks_le⟩
      g.moves.program.spares (.inl rfl) hm (fun _ hl => hl) ?_ fun d hd => .inl hd
    rintro d rfl
    rcases g.moves.block with hb | hb
    · exact .inl hb
    · exact .inr (.inr hb)

/-- Statements are added at the cursor. -/
theorem of_emits {ids : List StmtId} (h : Provided names c s) (hr : Ready False names c t) (hm : Moves s t)
    (he : Emits s t ids) (hids : ∀ y ∈ ids, (t.program.stmt y).action.blocks = [] ∧
      ∀ m, (t.program.stmt y).action.register? = some m → merges m) : Growth names H merges s t where
  built := hr.built
  lt := hr.lt
  next := hr.next
  moves := hm
  chain := by
    rw [he.cursor]
    exact .head _
  adds := by
    refine .of_new ids h.ready.built (fun b y hy => ?_) (fun y hy => ((he.new y).mp hy).1)
      fun y hy => ⟨.inl (Action.test?_of_blocks (hids y hy).1), (hids y hy).2⟩
    rw [he.stmts] at hy
    rcases List.mem_append.mp hy with hy | hy
    · exact .inl hy
    · split at hy
      · exact .inr hy
      · cases hy

/-- Where nothing is added. -/
theorem of_program (h : Provided names c s) (hp : t.program = s.program) (hb : t.block = s.block) :
    Growth names H merges s t := by
  have g : Growth names H merges s s := .refl h.ready.built h.ready.lt h.ready.next
  refine ⟨hp ▸ g.built, ?_, ?_, g.moves.of_eq hp hb, ?_, ?_⟩
  · rw [hp, hb]
    exact g.lt
  · rw [hp, hb]
    exact g.next
  · rw [hp, hb]
    exact g.chain
  · rw [hp]
    exact .of_new [] h.ready.built (fun _ _ hy => .inl hy) nofun nofun

end Growth

namespace Provided

/-- Nothing but the program, the cursor and the values matter. -/
theorem of_program (h : Provided names c s) (hp : t.program = s.program) (hb : t.block = s.block)
    (hsize : s.values.size ≤ t.values.size) (hv : Supplied s.program t.values) :
    Continues names H c k s t := by
  refine ⟨⟨(h.ready.toPlaced.of_eq hp hb hsize).ready, ?_, ?_, h.distinct⟩, .of_program h hp hb⟩
  · rw [hp]
    exact hv
  · rw [hp]
    exact h.carried

/-- Statements are added at the cursor. -/
theorem of_emits {ids : List StmtId} (h : Provided names c s) (hp : Placed False names c t)
    (hm : Moves s t) (he : Emits s t ids) (hids : ∀ y ∈ ids, (t.program.stmt y).action.blocks = [] ∧
      ∀ m, (t.program.stmt y).action.register? = some m → Mergeable k s m)
    (hv : Supplied t.program t.values) : Continues names H c k s t :=
  ⟨⟨hp.ready, hv, fun f hf m hmem => hm.program.isMerge (h.carried f hf m hmem), h.distinct⟩,
    .of_emits h hp.ready hm he hids⟩

/-- A statement that defines the next temp. -/
theorem defines {y : IR.Stmt} (h : Provided names c s) (hr : Ready False names c t) (hm : Moves s t)
    (hd : Defines s t y) (hy : y.action.blocks = []) (hreg : y.action.register? = none) :
    Continues names H c k s t := by
  refine h.of_emits hr.toPlaced hm hd.emits (fun z hz => ?_) ?_
  · rw [List.mem_singleton.mp hz, hd.stmt]
    exact ⟨hy, fun m hm => by simp [hreg] at hm⟩
  · rw [hd.values]
    exact h.supplied.mono hm.program.definition

theorem temp {v : Value} (h : Provided names c s) (hv : ∀ cs, v ≠ .merge cs)
    (hs : temp c v pos names s = .ok (x, s')) :
    Continues names H c k s s' ∧ s'.program.Readable x := by
  obtain ⟨hr, hm⟩ := h.ready.temp hv hs
  obtain ⟨rfl, hd⟩ := temp_ok h.ready.lt hs
  exact ⟨h.defines hr hm hd rfl rfl, Program.readable_temp hd.definition_self⟩

/-- A statement that neither defines a temp nor owns blocks. -/
theorem emit {action : Action} {effects : List Effect} {y : StmtId} (h : Provided names c s)
    (htemp : action.temp? = none) (hblocks : action.blocks = []) (hcopies : action.copies = [])
    (hreg : action.register? = none)
    (hjump : ∀ l, action.jump? = some l → s.program.Innermost c.parent l)
    (hs : emit c action pos effects names s = .ok (y, s')) : Continues names H c k s s' := by
  obtain ⟨hp, hm, -⟩ := h.ready.emit htemp hblocks hcopies hjump hs
  rw [emit_apply] at hs
  cases hs
  refine h.of_emits hp hm (.place _ h.ready.lt) (fun z hz => ?_) (h.supplied.mono hm.program.definition)
  rw [List.mem_singleton.mp hz, Program.stmt_place, Program.stmt_addStmt_self]
  exact ⟨hblocks, fun m hm => by simp [hreg] at hm⟩

end Provided

theorem Continues.trans (h : Continues names H c k s t) (g : Continues names H c k t u) :
    Continues names H c k s u :=
  ⟨g.provided, h.growth.trans g.growth fun _ hm => hm.of_moves h.growth.moves⟩

namespace Provided

theorem tracking (h : Provided names c s) (shapes : TempMap Nat) :
    Continues names H c k s { s with tracking := shapes } :=
  h.of_program rfl rfl (Nat.le_refl _) h.supplied

theorem setValue (h : Provided names c s) {v : Option Operand} (hv : ∀ y, v = some y → s.program.Readable y)
    (b : BindingId) :
    Continues names H c k s { s with values := s.values.setIfInBounds b v } :=
  h.of_program rfl rfl (by simp) (h.supplied.set hv b)

/-- What is known of the shapes of objects does not matter. -/
theorem modifySlot (h : Provided names c s) (w : TempId) (f : Slot → Slot)
    (hf : ∀ y, (f y).definition = y.definition) :
    Continues names H c k s { s with program := s.program.modifySlot w f } := by
  obtain ⟨hr, hm⟩ := h.ready.modifySlot w f hf
  have he : Emits s { s with program := s.program.modifySlot w f } [] :=
    .of_eq rfl (by simp [Program.modifySlot]) rfl
      (fun b => Program.block_modifySlot_of_eq _ (·.stmts) w b _ fun _ _ => rfl)
      (fun b => Program.block_modifySlot_of_eq _ (·.next) w b _ fun _ _ => rfl)
  exact h.of_emits hr.toPlaced hm he (by simp) (h.supplied.mono hm.program.definition)

theorem stores {r : Option BindingId} {name : String} {v : Operand} (h : Provided names c s)
    (hs : Stores names c pos r name v s s') :
    Continues names H c k s s' := by
  obtain ⟨place, assigned, hplace, hassigned, hs⟩ := hs
  obtain ⟨hr, hm⟩ := h.ready.setAssigned hassigned
  have k1 : Continues names H c k s { s with program := { s.program with assigned } } :=
    h.of_emits hr.toPlaced hm (.of_eq rfl rfl rfl (fun _ => rfl) fun _ => rfl) nofun
      (h.supplied.mono hm.program.definition)
  obtain ⟨_, t2, e2, h2⟩ := bind_ok hs
  cases e2
  obtain ⟨y, e3⟩ := discard_ok h2
  have k2 := k1.trans (k1.provided.tracking
    (([v].filterMap Operand.temp?).foldl (fun t x => t.erase x) s.tracking))
  exact k2.trans (k2.provided.emit rfl rfl rfl (by cases hplace <;> rfl) (by nofun) e3)

theorem writeName {r : Option BindingId} {name : String} {v : Operand} (h : Provided names c s)
    (hv : s.program.Readable v) (hs : writeName c r name v pos names s = .ok (x, s')) :
    Continues names H c k s s' ∧ s'.program.Readable x := by
  rcases writeName_ok hs with ⟨rfl, hs⟩ | ⟨b, -, -, -, -, t, ht, rfl⟩
  · have k1 := h.stores (H := H) (k := k) hs
    exact ⟨k1, hv.mono k1.growth.moves.program.definition⟩
  · rcases ht with ⟨-, rfl, rfl⟩ | ht
    · exact ⟨h.setValue (fun y hy => Option.some.inj hy ▸ hv) b, hv⟩
    · obtain ⟨k1, hx⟩ := h.temp (H := H) (k := k) (by simp) ht
      exact ⟨k1.trans (k1.provided.setValue (fun y hy => Option.some.inj hy ▸ hx) b), hx⟩

theorem terminate (h : Provided names c s) :
    Continues names H c k s { s with terminated := true } :=
  h.of_program rfl rfl (Nat.le_refl _) h.supplied

theorem leave {action : Operand → Action} {v : Operand} (h : Provided names c s)
    (haction : action = .returnValue ∨ action = .throwValue)
    (hs : leave c action v pos names s = .ok ((), s')) : Continues names H c k s s' := by
  obtain ⟨_, s1, e1, h1⟩ := bind_ok hs
  cases e1
  obtain ⟨_, s2, e2, h2⟩ := bind_ok h1
  obtain ⟨y, e3⟩ := discard_ok e2
  cases h2
  have k1 := h.tracking (H := H) (k := k)
    (([v].filterMap Operand.temp?).foldl (fun t x => t.erase x) s.tracking)
  have k2 : Continues names H c k s s2 := by
    refine k1.trans (k1.provided.emit ?_ ?_ ?_ ?_ ?_ e3)
    · rcases haction with rfl | rfl <;> rfl
    · rcases haction with rfl | rfl <;> rfl
    · rcases haction with rfl | rfl <;> rfl
    · rcases haction with rfl | rfl <;> rfl
    · rcases haction with rfl | rfl <;> nofun
  exact k2.trans k2.provided.terminate

theorem bindFunction {i : FuncId} {b : BindingId} (h : Provided names c s)
    (hs : BindsFunction names c pos i b s s') : Continues names H c k s s' := by
  rcases hs with ⟨-, place, y, hplace, e⟩ | ⟨-, rfl⟩
  · exact h.emit (show (Action.declare place i (names.binding b).output).temp? = none by cases place <;> trivial)
      rfl rfl (by cases place <;> trivial) (by nofun) e
  · have hd := Lowering.defines
      { action := .declare (.temp ⟨s.block, (s.program.block s.block).slots.size⟩) i
          (names.binding b).output,
        block := s.block, parent := c.parent, pos } h.ready.lt
    obtain ⟨hr, hm⟩ := h.ready.define
      (x := { action := .declare (.temp ⟨s.block, (s.program.block s.block).slots.size⟩) i
                (names.binding b).output,
              block := s.block, parent := c.parent, pos }) rfl rfl rfl rfl rfl rfl rfl rfl
    have k1 := h.defines (H := H) (k := k) hr hm hd rfl rfl
    refine k1.trans (k1.provided.setValue (fun y hy => ?_) b)
    cases hy
    exact Program.readable_temp hd.definition_self

/-- The end of a round. -/
theorem sync {frame : Frame} (h : Provided names c s) (hl : c.loop = some frame)
    (hs : sync c frame pos names s = .ok ((), s')) : Continues names H c (some frame) s s' := by
  obtain ⟨hr, hm⟩ := h.ready.sync hs
  obtain ⟨ids, hsync, hvalues, -⟩ := sync_ok h.ready h.supplied hs
  refine h.of_emits hr.toPlaced hm hsync.emits (fun y hy => ?_) ?_
  · have hmove := hsync.isMove y hy
    cases ha : (s'.program.stmt y).action with
    | copy w v =>
      refine ⟨rfl, fun m hm => ?_⟩
      cases hm
      exact .inr (.inr ⟨frame, rfl, hsync.copies y hy w v ha⟩)
    | define => exact ⟨rfl, nofun⟩
    | _ => simp [ha, Action.move?] at hmove
  · rw [hvalues]
    refine (h.supplied.mono hm.program.definition).restored fun e he y hy => ?_
    obtain ⟨e', he', rfl⟩ := List.mem_map.mp he
    cases hy
    exact Program.readable_of_isMerge
      (hm.program.isMerge (h.carried frame hl _ (List.mem_map.mpr ⟨e', he', rfl⟩)))

theorem jumpTo {frame : Frame} {a : Action} (h : Provided names c s) (hl : c.loop = some frame)
    (ha : a = .continueLoop frame.loop ∨ a = .breakLoop frame.loop)
    (hs : jumpTo c frame a pos names s = .ok ((), s')) : Continues names H c (some frame) s s' := by
  obtain ⟨_, t2, e2, h2⟩ := bind_ok hs
  have k2 := h.sync (H := H) hl e2
  obtain ⟨_, t3, e3, h3⟩ := bind_ok h2
  obtain ⟨y, e4⟩ := discard_ok e3
  cases h3
  have k3 : Continues names H c (some frame) s t3 := by
    refine k2.trans (k2.provided.emit ?_ ?_ ?_ ?_ (fun l hl' => ?_) e4)
    · rcases ha with rfl | rfl <;> rfl
    · rcases ha with rfl | rfl <;> rfl
    · rcases ha with rfl | rfl <;> rfl
    · rcases ha with rfl | rfl <;> rfl
    · have hframe : l = frame.loop := by rcases ha with rfl | rfl <;> exact (Option.some.inj hl').symm
      rw [hframe]
      exact k2.provided.ready.loop frame hl
  exact k3.trans k3.provided.terminate

end Provided

/-! ## Branches -/

/-- The state while the values at the ends of the arms of branch `n` are merged, from state `u` on. -/
structure MergeSteps (names : Names) (H : ScriptOptimizer.Stmt → Prop) (c : Site) (p : Program)
    (b : BlockId) (n : StmtId) (ends : List BlockId) (merges : TempId → Prop) (u t : State) : Prop where
  merging : Merging False names c p b n ends t
  adds : Adds names H (fun _ => False) merges (fun d => d ∈ ends ∨ d = u.block) p t.program
  supplied : Supplied t.program t.values
  cursor : t.block = u.block
  next : ∀ d, (t.program.block d).next = (u.program.block d).next
  size : t.program.blocks.size = u.program.blocks.size
  definition : u.program.KeepsDefinitions t.program

namespace MergeSteps

variable {p : Program} {b : BlockId} {n : StmtId} {ends : List BlockId} {merges : TempId → Prop}
  {e : BlockId} {a : Action}

theorem setValue (h : MergeSteps names H c p b n ends merges u t) {r : BindingId} {v : Option Operand}
    (hv : ∀ y, v = some y → t.program.Readable y) (hs : Lowering.setValue r v names t = .ok ((), s')) :
    MergeSteps names H c p b n ends merges u s' := by
  have hmerging := h.merging.setValue hs
  cases hs
  exact ⟨hmerging, h.adds, h.supplied.set hv r, h.cursor, h.next, h.size, h.definition⟩

/-- A statement is added in front of the branch or at the end of an arm. -/
theorem inserts (h : MergeSteps names H c p b n ends merges u t)
    (hmerging : Merging False names c p b n ends s') (hi : Inserts e a t s') (he : e ∈ ends ∨ e = b)
    (ha : a.test? = none) (hreg : ∀ m, a.register? = some m → merges m) :
    MergeSteps names H c p b n ends merges u s' := by
  have hnew : Adds names H (fun _ => False) merges (fun _ => True) t.program s'.program := by
    refine .of_new [t.program.stmts.size] h.merging.owned.built
      (fun d y hy => (hi.mem d y hy).imp_right List.mem_singleton.mpr) (fun y hy => ?_) fun y hy => ?_
    · exact Nat.le_of_eq (List.mem_singleton.mp hy).symm
    · rw [List.mem_singleton.mp hy, hi.action]
      exact ⟨.inl ha, hreg⟩
  have hbase := h.merging.owned.program
  constructor
  case merging => exact hmerging
  case adds =>
    refine h.adds.trans hnew h.merging.owned.built ⟨hbase.stmts_le, hbase.blocks_le⟩ hi.spares ?_
      (fun _ hm => hm) (fun _ hl => hl) (fun d hd => .inl hd) fun _ _ => .inl trivial
    rcases he with he | rfl
    · exact .inl (.inl he)
    · exact .inr (.inl h.merging.owned.lt)
  case supplied =>
    rw [hi.values]
    exact h.supplied.mono hi.definition
  case cursor => exact hi.cursor.trans h.cursor
  case next => exact fun d => (hi.next d).trans (h.next d)
  case size => exact hi.blocks.trans h.size
  case definition => exact fun w d hw => hi.definition w d (h.definition w d hw)

/-- The merging of one binding. -/
theorem mergeBinding (h : MergeSteps names H c p b n ends merges u t)
    (hc : (p.block b).parent = c.parent) (hmerge : ∀ m, m.block = b → p.definition? m = none → merges m) {r : BindingId}
    {list : List (Option BlockId × Option Operand)}
    (hlist : ∀ y ∈ list, (∀ e, y.1 = some e → e ∈ ends) ∧ ∀ z, y.2 = some z → u.program.Readable z)
    (hs : Lowering.mergeBinding c n pos r list names t = .ok ((), s')) :
    MergeSteps names H c p b n ends merges u s' := by
  unfold Lowering.mergeBinding at hs
  split at hs
  · cases hs
    exact h
  · exact h.setValue (by nofun) hs
  · next last first others =>
    split at hs
    · refine h.setValue (fun y hy => ?_) hs
      exact ((hlist (last, some first) List.mem_cons_self).2 y hy).mono h.definition
    · obtain ⟨q, t1, e1, h1⟩ := bind_ok hs
      obtain ⟨rfl, rfl⟩ := program_ok e1
      obtain ⟨⟨m, d⟩, t2, e2, h2⟩ := bind_ok h1
      obtain ⟨_, t3, e3, h3⟩ := bind_ok h2
      obtain ⟨hm, hnone, ⟨d', hd'⟩, hi⟩ := h.merging.newMerge_inserts e2 e3
      have k3 := h.inserts (h.merging.newMerge hc e2 e3) hi (.inr rfl) rfl nofun
      obtain ⟨_, t4, e4, h4⟩ := bind_ok h3
      have k4 := forM_ok (P := fun v => MergeSteps names H c p b n ends merges u v ∧
          v.program.definition? m = some d') ⟨k3, hd'⟩
        (fun y hy v v' hv hrun => by
          have hi := hv.1.merging.copyArm_inserts hrun
          refine ⟨hv.1.inserts (hv.1.merging.copyArm hc (hlist y hy).1 hrun) hi ?_ rfl fun m' hm' => ?_,
            hi.definition _ _ hv.2⟩
          · cases hlast : y.1 with
            | none => exact .inr rfl
            | some e => exact .inl ((hlist y hy).1 e hlast)
          · cases hm'
            exact hmerge m hm (Program.undefined_of_mono h.merging.owned.program.definition hnone)) e4
      refine k4.1.setValue (fun y hy => ?_) h4
      cases hy
      exact Program.readable_temp k4.2

/-- The merging of all bindings. -/
theorem mergeBindings (h : MergeSteps names H c p b n ends merges u t)
    (hc : (p.block b).parent = c.parent) (hmerge : ∀ m, m.block = b → p.definition? m = none → merges m)
    {arms : List Arm}
    (harms : ∀ a ∈ arms, (∀ e, a.last = some e → e ∈ ends) ∧
      ∀ v ∈ a.values, ∀ z, v = some z → u.program.Readable z) {bs : List BindingId} {i : Nat}
    (hs : Lowering.mergeBindings c n pos arms bs i names t = .ok ((), s')) :
    MergeSteps names H c p b n ends merges u s' := by
  induction bs generalizing t i with
  | nil =>
    cases hs
    exact h
  | cons r bs ih =>
    obtain ⟨_, t1, e1, h1⟩ := bind_ok hs
    refine ih (h.mergeBinding hc hmerge (fun y hy => ?_) e1) h1
    obtain ⟨a, ha, rfl⟩ := List.mem_map.mp hy
    refine ⟨(harms a ha).1, fun z hz => ?_⟩
    rw [List.getD_eq_getElem?_getD] at hz
    cases hv : a.values[i]? with
    | none =>
      rw [hv] at hz
      cases hz
    | some v =>
      rw [hv] at hz
      exact (harms a ha).2 v (List.mem_of_getElem? hv) z hz

end MergeSteps

/-- The values of the bindings can be read, and definitions of an earlier program are still there. -/
structure Backed (p : Program) (t : State) : Prop where
  definition : p.KeepsDefinitions t.program
  grown : ∀ y, y < p.stmts.size → y < t.program.stmts.size ∧ (p.stmt y).Grown (t.program.stmt y)
  supplied : Supplied t.program t.values

namespace Backed

variable {p : Program}

theorem provided (h : Backed s.program t) (hs : Provided names c s) {d : Site} (hd : d.loop = c.loop)
    (hr : Ready False names d t) : Provided names d t :=
  ⟨hr, h.supplied,
    fun f hf m hm => Program.isMerge_mono (hs.carried f (hd ▸ hf) m hm) h.definition fun y hy => (h.grown y hy).2,
    fun f hf => hs.distinct f (hd ▸ hf)⟩

theorem of_extends {b : BlockId} (hx : p.Extends b t.program) (hv : Supplied p t.values) : Backed p t :=
  ⟨hx.definition, fun y hy => ⟨Nat.lt_of_lt_of_le hy hx.stmts_le, hx.stmt y hy⟩, hv.mono hx.definition⟩

/-- Code goes on from a state with the definitions of the earlier program. -/
theorem of_continues (h : Backed p s) (k' : Continues names H c k s t) : Backed p t :=
  ⟨fun w d hw => k'.growth.moves.program.definition w d (h.definition w d hw), fun y hy =>
    ⟨Nat.lt_of_lt_of_le (h.grown y hy).1 k'.growth.moves.program.stmts_le,
      (h.grown y hy).2.trans (k'.growth.moves.program.stmt y (h.grown y hy).1)⟩, k'.provided.supplied⟩

/-- Bindings get values back that they had in an earlier state. -/
theorem leaveArm {r : State} (h : Backed s.program t) (hs : Supplied s.program s.values)
    (bs : List BindingId) : Backed s.program (r.leaveArm t (bs.zip (s.valuesOf bs))) := by
  refine ⟨h.definition, h.grown, h.supplied.restored fun e he y hy => ?_⟩
  exact (hs.valuesOf (List.of_mem_zip he).2 hy).mono h.definition

theorem startArm (h : Backed p t) (n : StmtId) : Backed p (t.startArm c n) := by
  refine ⟨fun w d hw => ?_, fun y hy => ?_, h.supplied.mono fun w d hw => ?_⟩
  · simpa [State.startArm] using h.definition w d hw
  · simpa [State.startArm] using h.grown y hy
  · simpa [State.startArm] using hw

end Backed

theorem adds_continueFrom {strict : Prop} {lacks : StmtId → Prop} {merges : TempId → Prop}
    {apart : BlockId → Prop} {b : BlockId} (hb : s.program.Built strict) :
    Adds names H lacks merges apart s.program (s.continueFrom c b).program := by
  refine .of_new [] hb (fun d y hy => .inl ?_) nofun nofun
  rw [State.continueFrom, Program.block_link_of_eq _ (·.stmts) _ _ _ (fun _ _ => rfl) fun _ _ => rfl] at hy
  exact Program.mem_stmts_addBlock hy

theorem spares_continueFrom {b : BlockId} (hb : b < s.program.blocks.size) :
    s.program.Spares b (s.continueFrom c b).program :=
  (((Program.Extends.refl b s.program).addBlock _ _).link (.inl rfl) (Nat.le_refl _)
    (by simpa using Nat.lt_succ_of_lt hb) (by simp)).spares

/-- The block that the cursor moves to follows the one that is continued. -/
theorem onChain_continueFrom {b : BlockId} (hb : b < s.program.blocks.size) :
    ((s.continueFrom c b).program.block b).next = some (s.continueFrom c b).block := by
  rw [State.continueFrom, Program.next_link _ _ _ _ (by simpa using Nat.lt_succ_of_lt hb), if_pos rfl]

/-- What the arms of a branch add. -/
theorem adds_arms {cond : Operand}
    {tracked : List BindingId} {second : Option Arm} {s1 s2 : State} (h : Provided names c s)
    (hrun : ArmRun False names c s.program.stmts.size (Backed s.program)
      (fun v => Growth names H (Mergeable k v) v) thenArm ((s.emitBranch c cond pos).startArm c s.program.stmts.size) t)
    (hs1 : s1 = (s.emitBranch c cond pos).leaveArm t (tracked.zip (s.valuesOf tracked)))
    (hsec : SecondArm c cond elseArm
      (ArmRun False names c s.program.stmts.size (Backed s.program)
        (fun v => Growth names H (Mergeable k v) v)) tracked s s1 s2 second)
    (hdone : ArmsDone False names c s.program s.block s.program.stmts.size
      ((armAfter tracked t).toList ++ second.toList) s2) :
    Adds names H (fun _ => False) (Mergeable k s)
      (· ∈ ((armAfter tracked t).toList ++ second.toList).filterMap Arm.last) s.program s2.program := by
  have hsize : (s.emitBranch c cond pos).program.blocks.size = s.program.blocks.size := by
    simp [State.emitBranch]
  have hstart : Adds names H (fun _ => False) (Mergeable k s) (fun _ => True) s.program
      ((s.emitBranch c cond pos).startArm c s.program.stmts.size).program := by
    refine .of_new [s.program.stmts.size] h.ready.built (fun d y hy => ?_) (fun y hy => ?_)
      fun y hy => ?_
    · exact (Program.mem_stmts_place (Program.mem_stmts_addBlock hy)).imp_right List.mem_singleton.mpr
    · exact Nat.le_of_eq (List.mem_singleton.mp hy).symm
    · have hself : ((s.emitBranch c cond pos).startArm c s.program.stmts.size).program.stmt
          s.program.stmts.size =
          { action := .branch cond s.program.blocks.size none none, block := s.block, parent := c.parent,
            pos } := s.program.stmt_addStmt_self _
      rw [List.mem_singleton.mp hy, hself]
      exact ⟨.inl rfl, fun m hm => by cases hm⟩
  have hlast : ∀ d (v : State), d ∈ (armAfter tracked v).toList.filterMap Arm.last → d = v.block := by
    intro d v hd
    obtain ⟨a, ha, hd⟩ := List.mem_filterMap.mp hd
    rw [Option.mem_toList] at ha
    unfold armAfter at ha
    split at ha
    · cases ha
    · cases ha
      exact (Option.some.inj hd).symm
  have hle : s.program.blocks.size ≤
      ((s.emitBranch c cond pos).startArm c s.program.stmts.size).program.blocks.size := by
    simp [State.startArm, hsize]
  have hfirst : Adds names H (fun _ => False) (Mergeable k s) (· = t.block) s.program t.program := by
    refine hstart.trans hrun.step.adds hrun.ready.built ⟨by simp [State.startArm, State.emitBranch], hle⟩
      hrun.moves.program.spares (.inl trivial) (fun m hm => hm.of_new (Nat.le_of_eq hsize.symm) hle)
      (fun _ hl => hl) (fun _ _ => .inl trivial) fun d hd => .inl hd
  have hsize1 := Nat.le_trans hle hrun.moves.program.blocks_le
  have hstmts1 : s.program.stmts.size ≤ t.program.stmts.size :=
    Nat.le_trans (by simp [State.startArm, State.emitBranch]) hrun.moves.program.stmts_le
  rcases hsec with ⟨-, rfl, rfl⟩ | ⟨arm, t2, -, hrun2, rfl, rfl⟩
  · rw [hs1]
    refine hfirst.weaken fun d hd => ?_
    rw [List.filterMap_append, List.mem_append] at hd
    rcases hd with hd | hd
    · exact hlast d t hd
    · simp at hd
  · have hprogram : s1.program = t.program := by rw [hs1]; rfl
    have hblock : (s1.startArm c s.program.stmts.size).block = t.program.blocks.size := by
      rw [State.startArm, hprogram]
    have hsize2 : (s1.startArm c s.program.stmts.size).program.blocks.size = t.program.blocks.size + 1 := by
      simp [State.startArm, hprogram]
    have hstart2 : Adds names H (fun _ => False) (Mergeable k s)
        (fun d => d = t.block ∨ t.program.blocks.size ≤ d) s.program
        (s1.startArm c s.program.stmts.size).program := by
      have hnone : Adds names H (fun _ => False) (Mergeable k s) (fun _ => True) t.program
          (s1.startArm c s.program.stmts.size).program := by
        refine .of_new [] hrun.passed.built (fun d y hy => .inl ?_) (by simp) (by simp)
        rw [State.startArm, hprogram] at hy
        exact Program.mem_stmts_addBlock hy
      have hspares : t.program.Spares s.block (s1.startArm c s.program.stmts.size).program := by
        rw [State.startArm, hprogram]
        exact ((Program.Extends.refl s.block t.program).addBlock _ _).spares
      refine hfirst.trans hnone hrun.passed.built ⟨hstmts1, hsize1⟩ hspares (.inr (.inl h.ready.lt))
        (fun _ hm => hm) (fun _ hl => hl) (fun d hd => ?_) fun _ _ => .inl trivial
      rcases hd with hd | hd
      · exact .inl hd
      · exact .inr (.inr hd)
    have hboth : Adds names H (fun _ => False) (Mergeable k s) (fun d => d = t.block ∨ d = t2.block)
        s.program t2.program := by
      refine hstart2.trans hrun2.step.adds hrun2.ready.built ⟨?_, ?_⟩ hrun2.moves.program.spares
        (.inl (.inr (Nat.le_of_eq hblock.symm))) (fun m hm => hm.of_new ?_ ?_) (fun _ hl => hl)
        (fun d hd => ?_) fun d hd => ?_
      · rw [State.startArm, Program.stmts_addBlock, hprogram]
        exact hstmts1
      · rw [hsize2]
        exact Nat.le_succ_of_le hsize1
      · rw [hblock]
        exact hsize1
      · rw [hsize2]
        exact Nat.le_succ_of_le hsize1
      · rcases hd with rfl | rfl
        · exact .inl (.inl rfl)
        · refine .inl (.inr ?_)
          rcases hrun2.moves.block with hb | hb
          · exact Nat.le_of_eq (hb.trans hblock).symm
          · rw [hsize2] at hb
            exact Nat.le_of_succ_le hb
      · rcases hd with rfl | rfl
        · rw [hsize2]
          exact .inr (.inl (Nat.lt_succ_of_lt hrun.passed.lt))
        · exact .inl rfl
    have hhome : (t2.program.stmt s.program.stmts.size).block < s.program.blocks.size := by
      have hb := hdone.owned.home
      rw [State.addArm, Program.stmt_modifyStmt_of_eq _ (·.block) _ _ _ (by intro; rfl)] at hb
      exact hb ▸ h.ready.lt
    refine (hboth.modifyStmt hrun2.passed.built s.program.stmts.size hhome rfl (.inl rfl)).weaken
      fun d hd => ?_
    rw [List.filterMap_append, List.mem_append] at hd
    rcases hd with hd | hd
    · exact .inl (hlast d t hd)
    · exact .inr (hlast d t2 hd)

/-- The values at the ends of the arms of a branch can be read behind it. -/
theorem backed_arms {cond : Operand}
    {tracked : List BindingId} {second : Option Arm} {s1 s2 : State} {G : State → State → Prop}
    (h : Provided names c s)
    (hrun : ArmRun False names c s.program.stmts.size (Backed s.program) G thenArm
      ((s.emitBranch c cond pos).startArm c s.program.stmts.size) t)
    (hs1 : s1 = (s.emitBranch c cond pos).leaveArm t (tracked.zip (s.valuesOf tracked)))
    (hsec : SecondArm c cond elseArm
      (ArmRun False names c s.program.stmts.size (Backed s.program) G) tracked s s1 s2
      second) :
    Backed s.program s2 ∧ ∀ a ∈ (armAfter tracked t).toList ++ second.toList, ∀ v ∈ a.values, ∀ z,
      v = some z → s2.program.Readable z := by
  have harm : ∀ {v : State} {a : Arm}, Supplied s2.program v.values →
      a ∈ (armAfter tracked v).toList →
      ∀ x ∈ a.values, ∀ z, x = some z → s2.program.Readable z := by
    intro v a hv ha x hx z hz
    rw [Option.mem_toList] at ha
    unfold armAfter at ha
    split at ha
    · cases ha
    · cases ha
      exact hv.valuesOf hx hz
  rcases hsec with ⟨-, rfl, rfl⟩ | ⟨arm, t2, -, hrun2, rfl, rfl⟩
  · have hb : Backed s.program s2 := by
      rw [hs1]
      exact hrun.finish.leaveArm h.supplied _
    refine ⟨hb, fun a ha => ?_⟩
    rcases List.mem_append.mp ha with ha | ha
    · exact harm (by rw [hs1]; exact hrun.finish.supplied) ha
    · cases List.mem_singleton.mp ha
      exact fun v hv z hz => (h.supplied.valuesOf hv hz).mono hb.definition
  · have hkept : t.program.KeepsDefinitions t2.program := by
      intro w d hw
      refine hrun2.moves.program.definition w d ?_
      rw [State.startArm, hs1]
      simpa [State.leaveArm] using hw
    have hb := hrun2.finish.leaveArm (r := s1) h.supplied tracked
    refine ⟨⟨fun w d hw => ?_, fun y hy => ?_, hb.supplied.mono fun w d hw => ?_⟩, fun a ha => ?_⟩
    · simpa [State.addArm] using hb.definition w d hw
    · rw [State.addArm, Program.stmts_size_modifyStmt, Program.stmt_modifyStmt_of_ne _ _ _ _ (Nat.ne_of_lt hy)]
      exact hb.grown y hy
    · simpa [State.addArm] using hw
    · rcases List.mem_append.mp ha with ha | ha
      · exact harm ((hrun.finish.supplied.mono hkept).mono fun w d hw => by
          simpa [State.addArm, State.leaveArm] using hw) ha
      · exact harm (hrun2.finish.supplied.mono fun w d hw => by
          simpa [State.addArm, State.leaveArm] using hw) ha

/-- A branch, when its arms go on as code does. -/
theorem Provided.branch {cond : Operand}
    {extra : List BindingId} (h : Provided names c s)
    (harms : ∀ arm, arm = thenArm ∨ elseArm = some arm → ∀ t t',
      Provided names (c.inArm s.program.stmts.size) t →
      arm (c.inArm s.program.stmts.size) names t = .ok ((), t') →
        Continues names H (c.inArm s.program.stmts.size) k t t')
    (hs : branch c cond thenArm elseArm extra pos names s = .ok ((), s')) :
    Continues names H c k s s' := by
  obtain ⟨t, s1, second, s2, hrun, hs1, hsec, hdone, hmerging, hend⟩ :=
    branch_runs (I := Backed s.program) (J := Backed s.program)
      (G := fun v => Growth names H (Mergeable k v) v) h.ready rfl
      (fun arm harm u u' hu hb hrun => by
        have k1 := harms arm harm u u' (hb.provided h rfl hu) hrun
        exact ⟨⟨k1.provided.ready.passed, k1.growth.moves⟩, hb.of_continues k1, k1.growth⟩)
      (.of_extends (h.ready.startFirst cond pos).1.program h.supplied)
      (fun t ht => (ht.finish.leaveArm h.supplied _).startArm _) hs
  have hadds := adds_arms h hrun hs1 hsec hdone
  obtain ⟨hbacked, hvalues⟩ := backed_arms h hrun hs1 hsec
  have hlt : s.block < s2.program.blocks.size :=
    Nat.lt_of_lt_of_le h.ready.lt hdone.owned.program.blocks_le
  have hdefinition : ∀ w d, s2.program.definition? w = some d →
      (s2.continueFrom c s.block).program.definition? w = some d := fun w d hw => by
    simpa [State.continueFrom] using hw
  have hsteps : MergeSteps names H c s.program s.block s.program.stmts.size
      (((armAfter (visibleBindings names c ++ extra) t).toList ++ second.toList).filterMap Arm.last)
      (Mergeable k s) (s2.continueFrom c s.block) (s2.continueFrom c s.block) := by
    refine ⟨hmerging, ?_, hbacked.supplied.mono hdefinition, rfl, fun _ => rfl, rfl, fun _ _ hw => hw⟩
    have hnone : Adds names H (fun _ => False) (Mergeable k s) (fun _ => True) s2.program
        (s2.continueFrom c s.block).program := adds_continueFrom hdone.owned.built
    refine hadds.trans hnone hdone.owned.built
      ⟨hdone.owned.program.stmts_le, hdone.owned.program.blocks_le⟩ (spares_continueFrom hlt)
      (.inr (.inl h.ready.lt)) (fun _ hm => hm) (fun _ hl => hl) (fun d hd => ?_) fun _ _ => .inl trivial
    rcases hd with hd | hd
    · exact .inl hd
    · exact .inr (.inr (Nat.le_of_eq hd.symm))
  -- The last state, whether values were merged or control reaches no end.
  have hfinal : ∀ {v : State}, MergeSteps names H c s.program s.block s.program.stmts.size
      (((armAfter (visibleBindings names c ++ extra) t).toList ++ second.toList).filterMap Arm.last)
      (Mergeable k s) (s2.continueFrom c s.block) v → Continues names H c k s v := by
    intro v hv
    have hr := (hv.merging.placed h.ready.loop h.ready.assigned).ready
    refine ⟨⟨hr, hv.supplied, fun f hf m hm => hv.merging.owned.program.isMerge (h.carried f hf m hm),
      h.distinct⟩, ⟨hr.built, hr.lt, hr.next, hv.merging.moves rfl rfl, ?_, ?_⟩⟩
    · refine .next (.head _) ?_
      rw [hv.next, hv.cursor]
      exact onChain_continueFrom hlt
    · exact hv.adds.weaken fun d hd => .inr (hd.trans hv.cursor)
  split at hend
  · rw [hend]
    have k1 := hfinal hsteps
    exact k1.trans k1.provided.terminate
  · exact hfinal (hsteps.mergeBindings h.ready.parent (fun m hm hnone => .inl ⟨hm, hnone⟩) (fun a ha =>
      ⟨fun e he => List.mem_filterMap.mpr ⟨a, ha, he⟩, fun v hv z hz =>
        (hvalues a ha v hv z hz).mono hdefinition⟩) hend)

namespace Provided

/-- The start of a function. -/
theorem enterFunction (h : Provided names c s) (i : FuncId) (depth : Nat) :
    Provided names (.ofFunction names i depth) (s.enterFunction i) where
  ready := h.ready.enterFunction i depth
  supplied := h.supplied.mono fun w d hw => by simpa [State.enterFunction] using hw
  carried _ hf := by cases hf
  distinct _ hf := by cases hf

/-- Behind a function the code around it goes on. -/
theorem exitFunction {i : FuncId} {depth : Nat} (h : Provided names c s)
    (hp : Provided names (.ofFunction names i depth) t)
    (hg : Growth names H (Mergeable none (s.enterFunction i)) (s.enterFunction i) t) :
    Continues names H c k s (s.exitFunction t) := by
  obtain ⟨hr, hm⟩ := h.ready.exitFunction hp.ready.passed hg.moves
  refine ⟨⟨hr, hp.supplied, fun f hf m hmem => hm.program.isMerge (h.carried f hf m hmem),
    h.distinct⟩, ⟨hr.built, hr.lt, hr.next, hm, .head _, ?_⟩⟩
  have hadd : Adds names H (fun _ => False) (Mergeable k s) (fun _ => True) s.program
      (s.enterFunction i).program := by
    refine .of_new [] h.ready.built (fun b y hy => ?_) nofun nofun
    rw [State.enterFunction, Program.block_addBlock] at hy
    split at hy
    · cases hy
    · exact .inl hy
  refine hadd.trans hg.adds (h.enterFunction i depth).ready.built (by simp [State.enterFunction])
    hg.moves.program.spares (.inl trivial) (fun m hmem => ?_) (fun _ hl => hl) (fun _ _ => .inl trivial)
    fun d hd => .inr (.inl ?_)
  · rcases hmem with hmem | hmem | ⟨f, hf, -⟩
    · exact .inr (.inl (Nat.le_of_eq hmem.1.symm))
    · exact .inr (.inl (Nat.le_trans (Nat.le_succ _) (by simpa [State.enterFunction] using hmem)))
    · cases hf
  · rw [hd]
    exact Nat.lt_of_lt_of_le h.ready.lt (by simp [State.enterFunction])

end Provided

end ScriptOptimizer.Lowering
