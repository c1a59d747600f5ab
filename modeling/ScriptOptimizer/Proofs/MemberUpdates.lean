import ScriptOptimizer.Proofs.HeapIndependence
import ScriptOptimizer.Proofs.ParallelCopies

/-!
# Updates of members

An assignment with an operation reads a member, evaluates its right side and writes the member back. What
runs in between may store to captured locals and to globals. The main statement says that the object
denotes the same where it is written as where it was read, and the key exactly if nothing in between may
store to the place that it reads: the object is held in a temp when need be, the key is not.
-/

namespace ScriptOptimizer.IR

variable {assigned : NameSet} {p : Program} {r w : StmtId} {x y : Stmt} {z : Operand} {m m' : Memory}
  {q : Place}

/-! ## What statements leave -/

/-- The place that an operand reads and that other code may write, where `assigned` holds the globals that
are assigned somewhere. -/
def Operand.place? (assigned : NameSet) : Operand → Option Place
  | named name pinned => if pinned then some (.named name) else none
  | global name => if assigned.contains name then some (.global name) else none
  | _ => none

/-- Whether a statement may store to a place: it does so itself, or it may run code that does. -/
def Stmt.MayStore (x : Stmt) (q : Place) : Prop :=
  match x.action with
  | .store place _ | .declare place .. => place = q
  | _ => x.effects ≠ []

/-- What a statement leaves as it is: the temps that it does not write, the places that it cannot store to,
and the globals that are assigned nowhere. -/
structure Stmt.Leaves (assigned : NameSet) (x : Stmt) (m m' : Memory) : Prop where
  temps : ∀ t, x.action.temp? ≠ some t → x.action.register? ≠ some t → m'.temps t = m.temps t
  locals : m'.locals = m.locals
  captured : ∀ n, ¬ x.MayStore (.named n) → m'.captured n = m.captured n
  globals : ∀ n, (assigned.contains n = true → ¬ x.MayStore (.global n)) → m'.globals n = m.globals n
  receiver : m'.receiver = m.receiver
  arguments : m'.arguments = m.arguments

/-- A statement leaves an operand that reads nothing which it may write. -/
theorem Stmt.Leaves.eval_eq (h : x.Leaves assigned m m') (ops : Operators) (hz : z.isFresh = false)
    (ht : ∀ t, z = .temp t → x.action.temp? ≠ some t ∧ x.action.register? ≠ some t)
    (hq : ∀ q, z.place? assigned = some q → ¬ x.MayStore q) : z.eval ops m' = z.eval ops m := by
  cases z with
  | literal => rfl
  | temp t => exact h.temps t (ht t rfl).1 (ht t rfl).2
  | global n => exact h.globals n fun hn => hq _ (if_pos hn)
  | named n pinned =>
    cases pinned with
    | false => exact congrFun h.locals n
    | true => exact h.captured n (hq _ rfl)
  | receiver => exact h.receiver
  | arguments => exact h.arguments
  | closure | raw => cases hz

/-- A statement that may store to the place of an operand may change its value. -/
theorem Stmt.MayStore.exists_leaves (hx : x.MayStore q) (hz : z.place? assigned = some q) :
    ∃ m m', x.Leaves assigned m m' ∧ ∀ ops, z.eval ops m' ≠ z.eval ops m := by
  let m : Memory := .uniform (.object 0) []
  cases z with
  | named n pinned =>
    cases pinned with
    | false => cases hz
    | true =>
      cases hz
      refine ⟨m, { m with captured := fun a => if a = n then .object 1 else .object 0 }, ?_, fun ops => ?_⟩
      · exact ⟨fun _ _ _ => rfl, rfl, fun a ha => if_neg fun h : a = n => ha (h ▸ hx), fun _ _ => rfl, rfl, rfl⟩
      · simp [Operand.eval, m, Memory.uniform]
  | global n =>
    obtain ⟨hn, hq⟩ := Option.ite_none_right_eq_some.mp hz
    cases hq
    refine ⟨m, { m with globals := fun a => if a = n then .object 1 else .object 0 }, ?_, fun ops => ?_⟩
    · exact ⟨fun _ _ _ => rfl, rfl, fun _ _ => rfl, fun a ha => if_neg fun h : a = n => ha (h ▸ hn) (h ▸ hx), rfl,
      rfl⟩
    · simp [Operand.eval, m, Memory.uniform]
  | _ => cases hz

/-- The statements that run between two others: those that were added between them to the blocks that
control reaches from the first. -/
def Program.Between (p : Program) (r w y : StmtId) : Prop :=
  r < y ∧ y < w ∧ ∃ b, p.Beneath (p.stmt r).block b ∧ y ∈ (p.block b).stmts

/-- An operand denotes the same before and behind every run of the statements between two others. -/
def Program.Kept (p : Program) (assigned : NameSet) (r w : StmtId) (z : Operand) : Prop :=
  ∀ (ops : Operators) (m m' : Memory),
    Relation.ReflTransGen (fun m m' => ∃ y, p.Between r w y ∧ (p.stmt y).Leaves assigned m m') m m' →
      z.eval ops m' = z.eval ops m

/-- An operand is kept if nothing in between may store to its place, provided that nothing writes its temp. -/
theorem Program.kept_iff (hz : z.isFresh = false) (ht : ∀ t, z = .temp t → ∀ y, p.Between r w y →
      (p.stmt y).action.temp? ≠ some t ∧ (p.stmt y).action.register? ≠ some t) :
    p.Kept assigned r w z ↔
      ∀ q, z.place? assigned = some q → ∀ y, p.Between r w y → ¬ (p.stmt y).MayStore q := by
  constructor
  · intro h q hq y hy hstore
    obtain ⟨m, m', hl, hne⟩ := hstore.exists_leaves hq
    exact hne (.probing Heap.firstClosure) (h _ m m' (.single ⟨y, hy, hl⟩))
  · intro h ops m m' hrun
    induction hrun with
    | refl => rfl
    | tail _ hstep ih =>
      obtain ⟨y, hy, hl⟩ := hstep
      exact (hl.eval_eq ops hz (fun t e => ht t e y hy) fun q hq => h q hq y hy).trans ih

theorem Stmt.Grown.define_eq {a : TempId} {v : Value} {l : Placement} (h : x.Grown y) (hv : v.isMerge = false)
    (hx : x.action = .define a v l) : y.action = .define a v l := by
  rcases h with rfl | ⟨t, cs, ds, m, n, hx', -⟩
  · exact hx
  · rw [hx'] at hx
    cases hx
    cases hv

theorem Stmt.Grown.mayStore_eq (h : x.Grown y) (q : Place) : y.MayStore q = x.MayStore q :=
  h.eq_of (·.MayStore q) fun _ _ _ _ _ hx => by simp [Stmt.MayStore, hx]

/-- Control reaches no other block from one that nothing follows and whose statements own no blocks. -/
theorem Program.Beneath.eq_of_plain {a b : BlockId} (h : p.Beneath a b) (hnext : (p.block a).next = none)
    (hplain : p.Plain a) : b = a := by
  induction h with
  | first => rfl
  | next _ hd ih =>
    rw [ih, hnext] at hd
    cases hd
  | owned _ hy hd ih =>
    rw [ih] at hy
    rw [hplain _ hy] at hd
    cases hd

end ScriptOptimizer.IR

namespace ScriptOptimizer

/-- The operation of an assignment that reads its target first. -/
def AssignOp.operation? : AssignOp → Option BinaryOp
  | set => none
  | bare op => some op
  | compound op => if op.isLogical then none else some op

namespace Lowering

open IR

variable {names : Names} {c : Site} {s s' t u : State} {pos : Position} {o k v x : Operand} {fuel : Nat}

/-! ## The parts of an update -/

theorem noteWrite_ok (h : noteWrite c o k v names s = .ok ((), s')) :
    s'.program.stmts = s.program.stmts ∧ s'.block = s.block := by
  obtain ⟨r, s1, e1, h1⟩ := bind_ok h
  obtain rfl := (Law.tracked?_ok e1).1
  cases r with
  | none =>
    cases h1
    exact ⟨rfl, rfl⟩
  | some r =>
    obtain ⟨u, shape⟩ := r
    dsimp only at h1
    cases hg : written? shape k v with
    | none | some =>
      rw [hg] at h1
      cases h1
      exact ⟨rfl, rfl⟩

/-- The statement that writes a member. -/
theorem setMember_ok (h : setMember c o k v pos names s = .ok ((), t)) :
    (t.program.stmt s.program.stmts.size).action = .setMember o k v ∧
      (t.program.stmt s.program.stmts.size).block = s.block ∧ t.block = s.block ∧
      t.program.stmts.size = s.program.stmts.size + 1 := by
  obtain ⟨_, s1, e1, h1⟩ := bind_ok h
  cases e1
  obtain ⟨_, s2, e2, h2⟩ := bind_ok h1
  obtain ⟨hstmts, hblock⟩ := noteWrite_ok e2
  obtain ⟨_, e3⟩ := discard_ok h2
  rw [emit_apply] at e3
  cases e3
  have hsize : s.program.stmts.size = s2.program.stmts.size := by rw [hstmts]
  rw [hsize, Program.stmt_place, Program.stmt_addStmt_self]
  exact ⟨rfl, hblock, hblock, by simp⟩

/-- What is settled because code may run reads no place that the code may write. -/
theorem settle_place? (ha : names.assigned.Within s.program.assigned)
    (h : (do if true && (← isVolatile x) then hold c x pos else pure x : Lower Operand) names s = .ok (o, s')) :
    o.place? names.assigned = none := by
  obtain ⟨b, s1, e1, h1⟩ := bind_ok h
  obtain rfl := Law.isVolatile_ok e1
  cases b with
  | true =>
    change temp c (.operand x) pos names s1 = .ok (o, s') at h1
    rw [temp_apply] at h1
    cases h1
    rfl
  | false =>
    obtain ⟨rfl, -⟩ := pure_ok h1
    cases o with
    | named => cases e1; rfl
    | global n =>
      have hn : s1.program.assigned.contains n = false := congrArg Prod.fst (Except.ok.inj e1)
      refine if_neg fun hn' => ?_
      rw [ha n hn'] at hn
      cases hn
    | _ => rfl

/-- The law that loops keep the code of their tests holds of every expression. -/
private theorem tree_true (names : Names) (f : FuncId) (d : ScopeId) (e : Expr) :
    (conditionLaw names fun _ => True).Tree f d e := fun v _ => loopsIf_true v.node

/-- A simple expression adds statements to the block of the cursor at most, and they store to no place. -/
theorem Provided.simple {e : Expr} (hp : Provided names c s) (he : isSimple e = true)
    (h : expr fuel c e names s = .ok (x, u)) : u.block = s.block ∧
      ∀ y ∈ (u.program.block s.block).stmts, s.program.stmts.size ≤ y → ∀ q, ¬ (u.program.stmt y).MayStore q := by
  have hnone : u = s → u.block = s.block ∧
      ∀ y ∈ (u.program.block s.block).stmts, s.program.stmts.size ≤ y → ∀ q, ¬ (u.program.stmt y).MayStore q := by
    rintro rfl
    exact ⟨rfl, fun y hy hle => absurd (hp.ready.built.home _ y hy).1 (Nat.not_lt.mpr hle)⟩
  cases fuel with
  | zero => exact (fail_ok h).elim
  | succ fuel =>
    obtain ⟨d, s1, e1, h1⟩ := bind_ok h
    obtain ⟨rfl, rfl⟩ := Law.deeper_ok e1
    cases e with
    | literal | receiver => exact hnone (pure_ok h1).2
    | ident pos name => exact hnone (readName_ok h1).1
    | function pos f =>
      obtain ⟨i, s2, e2, h2⟩ := bind_ok h1
      cases fuel with
      | zero => exact (fail_ok e2).elim
      | succ fuel =>
        have hp' : Provided names { c with depth := c.depth + 1 } s1 := hp.of_site rfl rfl rfl
        obtain ⟨t, rfl, hb, hpass⟩ := ((conditionLaw names fun _ => True).obey_parts fuel).function_apart
          (c := { c with depth := c.depth + 1 }) (f := f) (fun v _ => loopsIf_true v.node) hp' |>.gives e2
        have hg := hpass.growth (hp'.enterFunction i 0)
        have hexit := hp'.exitFunction (H := fun _ => True) (k := none) hb hg
        obtain ⟨-, hd⟩ := temp_ok hexit.provided.ready.lt h2
        have hsame : (t.program.block s1.block).stmts = (s1.program.block s1.block).stmts := by
          have hlt := hp.ready.lt
          rw [hg.moves.program.stmts s1.block (by simp [State.enterFunction, Nat.lt_succ_of_lt hlt])
            (Nat.ne_of_lt hlt), State.enterFunction, Program.block_addBlock, if_neg (Nat.ne_of_lt hlt)]
        refine ⟨hd.emits.cursor, fun y hy hle q => ?_⟩
        rw [hd.emits.stmts, if_pos (by rfl), List.mem_append, List.mem_singleton] at hy
        rcases hy with hy | rfl
        · rw [State.exitFunction, hsame] at hy
          exact absurd (hp.ready.built.home _ y hy).1 (Nat.not_lt.mpr hle)
        · rw [hd.stmt]
          exact fun hne => hne rfl
    | _ => cases he

/-! ## Updates -/

/-- A member is updated on the way from one state to another, with the result `x`: statement `r` reads it, `d`
computes its new value, which is the result, and `w`, the last statement on the way, writes it back. The object is
kept in between, and the key if and only if nothing in between may store to its place. -/
def WritesBack (names : Names) (op : BinaryOp) (s : State) (x : Operand) (t : State) : Prop :=
  ∃ (o k v : Operand) (g : Option Nat) (old next : TempId) (r d w : StmtId),
    s.program.stmts.size ≤ r ∧ r < d ∧ d < w ∧ w + 1 = t.program.stmts.size ∧ x = .temp next ∧
    t.program.OnChain (t.program.stmt r).block (t.program.stmt w).block ∧
    (t.program.stmt r).action = .define old (.member o k g) .undecided ∧
    (t.program.stmt d).action = .define next (.binary op (.temp old) v) .undecided ∧
    (t.program.stmt w).action = .setMember o k (.temp next) ∧
    t.program.Kept names.assigned r w o ∧
    (t.program.Kept names.assigned r w k ↔ ∀ q, k.place? names.assigned = some q →
      ∀ y, t.program.Between r w y → ¬ (t.program.stmt y).MayStore q)

/-- Nothing behind a state writes a temp that had a definition there. -/
theorem Growth.writes_none {H : ScriptOptimizer.Stmt → Prop} (h : Growth names H (Mergeable none s) s t)
    (hb : s.program.Built False) {w : StmtId} {y : StmtId} {z : Operand} (hz : s.program.Known z)
    (hy : t.program.Between s.program.stmts.size w y) {a : TempId} (ha : z = .temp a) :
    (t.program.stmt y).action.temp? ≠ some a ∧ (t.program.stmt y).action.register? ≠ some a := by
  obtain ⟨hlt, -, b, -, hmem⟩ := hy
  obtain ⟨d, hd⟩ := hz a ha
  have hlast := h.moves.program.definition a d hd
  have hold := (hb.definition a d hd).1
  constructor
  · intro hy
    have heq := h.built.tied b y a hmem hy
    rw [hlast] at heq
    cases heq
    exact Nat.lt_asymm hlt hold
  · intro hy
    rcases h.adds.copies b y a hmem (Nat.le_of_lt hlt) hy with hm | hm | ⟨_, hm, -⟩
    · rw [hm.2] at hd
      cases hd
    · rw [Program.definition?_eq, s.program.block_of_ge _ hm] at hd
      cases hd
    · cases hm

/-- The steps of an update of a member. -/
theorem operate_ok {value : Part} {op : BinaryOp} {target source object : Expr} {key : Key}
    (hm : memberOf? target = some (object, key))
    (h : operate value c pos op target source names s = .ok (x, t)) :
    ∃ o0 k rest s1 o s2 g old s3 v u s4,
      memberParts value c object key [] names s = .ok ((o0, k, rest), s1) ∧
      (do if !isSimple source && (← isVolatile o0) then hold c o0 target.pos else pure o0 : Lower Operand) names s1 =
        .ok (o, s2) ∧
      temp c (.member o k g) target.pos names s2 = .ok (old, s3) ∧ value c source names s3 = .ok (v, u) ∧
      temp c (.binary op old v) pos names u = .ok (x, s4) ∧ setMember c o k x pos names s4 = .ok ((), t) := by
  unfold operate modifyTarget at h
  split at h
  · cases hm
  · rw [hm] at h
    obtain ⟨⟨o0, k, rest⟩, s1, e1, h1⟩ := bind_ok h
    obtain ⟨o, s2, e2, h2⟩ := bind_ok h1
    obtain ⟨old, s3, e3, h3⟩ := bind_ok h2
    obtain ⟨g, s2', e4, h4⟩ := bind_ok e3
    obtain rfl := Law.generation?_ok e4
    obtain ⟨⟨next, y⟩, s4, e5, h5⟩ := bind_ok h3
    obtain ⟨v, u, e6, h6⟩ := bind_ok e5
    obtain ⟨next', s5, e7, h7⟩ := bind_ok h6
    obtain ⟨_, s6, e8, h8⟩ := bind_ok h5
    cases h7
    cases h8
    exact ⟨o0, k, rest, s1, o, s2', g, old, s3, v, u, _, e1, e2, h4, e6, e7, e8⟩

theorem Provided.writesBack {op : BinaryOp} {target source object : Expr} {key : Key}
    (hp : Provided names c s) (hm : memberOf? target = some (object, key))
    (h : operate (expr fuel) c pos op target source names s = .ok (x, t)) : WritesBack names op s x t := by
  obtain ⟨o0, k, rest, s1, o, s2, g, old, s3, v, u, s4, e1, e2, e3, e4, e5, e6⟩ := operate_ok hm h
  have hv := ((conditionLaw names fun _ => True).obey_parts fuel).value
  have hall := tree_true names c.func c.scope
  obtain ⟨k1, ho0, hk1, -⟩ := (Law.memberParts_does hv (hall object) (fun _ _ => hall _) (List.forall_mem_nil _)
    hp).gives e1
  obtain ⟨k2, ho⟩ := (Law.settle_does (A := False) k1.inv ho0).gives e2
  have hk := k2.ok hk1
  obtain ⟨k3, hold⟩ := (Law.temp_does (A := False) k2.inv (by simp)
    (by simpa [Value.operands] using ⟨ho, hk⟩)).gives e3
  obtain ⟨k4, hx⟩ := (hv c source s3 (hall source) k3.inv).gives e4
  obtain ⟨k5, hnext⟩ := (Law.temp_does (A := False) k4.inv (by simp)
    (by simpa [Value.operands] using ⟨k4.ok hold, hx⟩)).gives e5
  have k35 := k3.trans (k4.trans k5)
  obtain ⟨k6, -⟩ := (Law.setMember_does (A := False) k5.inv (k35.ok ho) (k35.ok hk) hnext).gives e6
  have hg := (k35.trans k6).step.growth k2.inv
  have hg3 := (k4.trans (k5.trans k6)).step.growth k3.inv
  have hgu := (k5.trans k6).step.growth k4.inv
  obtain ⟨rfl, hd3⟩ := temp_ok k2.inv.ready.lt e3
  obtain ⟨rfl, hd5⟩ := temp_ok k4.inv.ready.lt e5
  obtain ⟨hset, hblock, hcursor, hsize⟩ := setMember_ok e6
  have hr := ((hd3.emits.new _).mp (List.mem_singleton.mpr rfl)).2
  have hd := ((hd5.emits.new _).mp (List.mem_singleton.mpr rfl)).2
  have hread := hg3.moves.program.stmt _ hr
  have hcompute := (k6.step.growth k5.inv).moves.program.stmt _ hd
  have hhome : (t.program.stmt s2.program.stmts.size).block = s2.block := by rw [hread.block_eq, hd3.stmt]
  have hwrites : ∀ {z}, s2.program.Readable z → ∀ a, z = .temp a → ∀ y,
      t.program.Between s2.program.stmts.size s4.program.stmts.size y → _ :=
    fun hz _ ha _ hy => hg.writes_none k2.inv.ready.built hz.known hy ha
  refine ⟨o, k, v, g, _, _, s2.program.stmts.size, u.program.stmts.size, s4.program.stmts.size,
    ((k1.trans k2).step.growth hp).moves.program.stmts_le,
    Nat.lt_of_lt_of_le hr (k4.step.growth k3.inv).moves.program.stmts_le, hd, hsize.symm, rfl, ?_,
    hread.define_eq rfl (by rw [hd3.stmt]), hcompute.define_eq rfl (by rw [hd5.stmt]), hset,
    (Program.kept_iff ho.isFresh (hwrites ho)).mpr fun q hq y hy => ?_, Program.kept_iff hk.isFresh (hwrites hk)⟩
  · rw [hhome, hblock, ← hcursor]
    exact hg.chain
  · cases hs : isSimple source with
    | false =>
      rw [hs] at e2
      rw [settle_place? k1.inv.ready.assigned e2] at hq
      cases hq
    | true =>
      obtain ⟨hu, hquiet⟩ := k3.inv.simple hs e4
      obtain ⟨hlt, hlt', b, hb, hmem⟩ := hy
      have hsame : s3.block = t.block := by rw [hcursor, hd5.emits.cursor, hu]
      rw [hhome, ← hd3.emits.cursor, hsame] at hb
      obtain rfl := hb.eq_of_plain k6.inv.ready.next k6.inv.ready.plain
      by_cases hyu : y < u.program.stmts.size
      · rw [(hgu.moves.program.stmt y hyu).mayStore_eq]
        rw [← hsame] at hmem
        refine hquiet y (hgu.adds.old _ y hmem hyu) (Nat.not_lt.mp fun hy => ?_) q
        exact Nat.ne_of_gt hlt (List.mem_singleton.mp ((hd3.emits.new y).mpr ⟨Nat.le_of_lt hlt, hy⟩))
      · cases List.mem_singleton.mp ((hd5.emits.new y).mpr ⟨Nat.not_lt.mp hyu, hlt'⟩)
        rw [hcompute.mayStore_eq, hd5.stmt]
        exact fun hne => hne rfl

/-- The updates of members at the points of lowering. -/
def watchUpdates (names : Names) : Watch where
  before fuel j s := match j with
    | .value c (.assign pos op target source) => ∀ operation x t, op.operation? = some operation →
        (memberOf? target).isSome = true → expr fuel c (.assign pos op target source) names s = .ok (x, t) →
        WritesBack names operation s x t
    | _ => True
  behind _ _ _ := True

theorem Provided.updates {e : Expr} (hp : Provided names c s) :
    (watchUpdates names).before fuel (.value c e) s := by
  cases e with
  | assign pos op target source =>
    intro operation x t hop hm h
    obtain ⟨⟨object, key⟩, hm⟩ := Option.isSome_iff_exists.mp hm
    cases fuel with
    | zero => exact (fail_ok h).elim
    | succ fuel =>
      obtain ⟨d, s1, e1, h1⟩ := bind_ok h
      obtain ⟨rfl, rfl⟩ := Law.deeper_ok e1
      have hp' : Provided names { c with depth := c.depth + 1 } s1 := hp.of_site rfl rfl rfl
      cases op with
      | set => cases hop
      | bare op =>
        cases hop
        exact hp'.writesBack hm h1
      | compound op =>
        obtain ⟨hl, hop⟩ := Option.ite_none_left_eq_some.mp hop
        cases hop
        dsimp only [assignment] at h1
        rw [if_neg hl] at h1
        exact hp'.writesBack hm h1
  | _ => trivial

end Lowering

open Lowering

/-- Every assignment with an operation to a member ends with a write to the object that it read; it writes the
key that it read exactly if nothing that its right side runs may store to the place of the key. -/
theorem Script.lower_writesBack (x : Script) (stop : Failure) : x.lowerWatched stop watchUpdates = x.lower := by
  refine Script.lowerWatched_eq fun r names _ => ⟨conditionLaw names fun _ => True,
    conditionLaw_startsParts names, ?_, ?_⟩
  · exact {
      value := fun _ h => Provided.updates h
      stmt := fun _ _ _ => trivial
      function := fun _ _ => trivial
      value_behind := fun _ => trivial
      stmt_behind := fun _ => trivial
      function_behind := fun _ => trivial }
  · exact ⟨provided_ofScript names, fun _ _ v _ => loopsIf_true v.node, fun _ _ _ => trivial⟩

/-- A function that updates a member under a global key, which the call on the right side assigns. -/
def forgetfulUpdate : String :=
  "var k = 0; function h(o) \x7b o[k] += f(); \x7d function f() \x7b k = 1; \x7d"

/-- The key is read again behind the call, where it may have another value. -/
theorem Script.lower_forgetfulUpdate :
    ∃ x p, Script.parse "" forgetfulUpdate = .ok x ∧ x.lower = .ok p ∧
      (p.stmt 0).action = .define ⟨1, 0⟩ (.member (.named "o" false) (.global "k") none) .undecided ∧
      (p.stmt 1).action = .define ⟨1, 1⟩ (.call (.function (.global "f")) []) .undecided ∧
      (p.stmt 3).action = .setMember (.named "o" false) (.global "k") (.temp ⟨1, 2⟩) ∧
      p.Between 0 3 1 ∧ ¬ p.Kept p.assigned 0 3 (.global "k") := by
  obtain ⟨x, p, hx, h, hp⟩ := Script.exists_lower forgetfulUpdate (fun _ p =>
    (p.stmt 0).action = .define ⟨1, 0⟩ (.member (.named "o" false) (.global "k") none) .undecided ∧
    (p.stmt 1).action = .define ⟨1, 1⟩ (.call (.function (.global "f")) []) .undecided ∧
    (p.stmt 3).action = .setMember (.named "o" false) (.global "k") (.temp ⟨1, 2⟩) ∧
    (p.stmt 0).block = 1 ∧ 1 ∈ (p.block 1).stmts ∧ (p.stmt 1).effects = [.io] ∧
    p.assigned.contains "k" = true) (by decide +kernel)
  obtain ⟨hread, hcall, hwrite, hblock, hmem, heffects, hassigned⟩ := of_decide_eq_true hp
  have hbetween : p.Between 0 3 1 := ⟨by decide, by decide, 1, hblock ▸ .first, hmem⟩
  refine ⟨x, p, hx, h, hread, hcall, hwrite, hbetween, fun hkept => ?_⟩
  refine (IR.Program.kept_iff rfl (fun t ht => by cases ht)).mp hkept (.global "k") (if_pos hassigned) 1 hbetween ?_
  simp [IR.Stmt.MayStore, hcall, heffects]

end ScriptOptimizer
