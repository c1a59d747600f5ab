import ScriptOptimizer.Proofs.Paths

/-!
# Transfers of control

An execution of a function enters one block after another. At the end of a block its last statement says
where control goes: a branch takes an arm that its known outcome allows, a loop runs rounds as far as it
is known to, and a jump goes to its loop. A chain that ends hands control to what stands around it.

What an execution enters lies on the chains that a walk from the entry meets, and it enters the block in
front of a chain, and the blocks that a chain goes through, before those behind them.
-/

namespace ScriptOptimizer.IR

/-- Whether a loop that tests behind its body runs it once only. -/
def Loop.isSingle (l : Loop) : Bool :=
  match l.head with
  | .tested true .. => l.rounds == .once
  | _ => false

/-- Whether control can leave a loop where a round ends. -/
def Loop.isFinite (l : Loop) : Bool := l.rounds != .infinite || l.test?.isNone

namespace Program

variable {f : FuncId}

/-- What the last statement of a block does. -/
def lastAction? (p : Program) (b : BlockId) : Option Action :=
  (p.block b).stmts.getLast?.map fun s => (p.stmt s).action

/-- Where control goes when it is through with the last statement of a block: along the chain or, at the
end of the chain, on in what owns it. -/
inductive Completes (p : Program) : BlockId → BlockId → Prop where
  | along {b c : BlockId} (hn : (p.block b).next = some c) : Completes p b c
  /-- The end of an arm is the end of the branch. -/
  | join {b c t : BlockId} {s : StmtId} {x : Operand} {e : Option BlockId} {k : Option Bool}
      (he : (p.block b).next = none) (hp : (p.block b).parent = some s)
      (ha : (p.stmt s).action = .branch x t e k) (h : Completes p (p.stmt s).block c) : Completes p b c
  /-- From a chain of a loop to the one that follows it, unless no further round does. -/
  | turn {b h : BlockId} {s : StmtId} {l : Loop} (he : (p.block b).next = none)
      (hp : (p.block b).parent = some s) (ha : (p.stmt s).action = .loop l) (hh : h ∈ l.blocks)
      (hb : p.OnChain h b) (hr : l.endsAt h = true → l.isSingle = false) : Completes p b (l.following h)
  /-- The end of a round can be the end of the loop. -/
  | leave {b c h : BlockId} {s : StmtId} {l : Loop} (he : (p.block b).next = none)
      (hp : (p.block b).parent = some s) (ha : (p.stmt s).action = .loop l) (hh : h ∈ l.blocks)
      (hb : p.OnChain h b) (hl : l.endsAt h = true) (hf : l.isFinite = true)
      (h : Completes p (p.stmt s).block c) : Completes p b c

/-- Control goes from one block to the start of another. -/
inductive Transfers (p : Program) (b : BlockId) : BlockId → Prop where
  | thenArm {t : BlockId} {x : Operand} {e : Option BlockId} {k : Option Bool}
      (ha : p.lastAction? b = some (.branch x t e k)) (hk : k ≠ some false) : Transfers p b t
  | elseArm {t c : BlockId} {x : Operand} {k : Option Bool}
      (ha : p.lastAction? b = some (.branch x t (some c) k)) (hk : k ≠ some true) : Transfers p b c
  /-- Past a branch with one arm. -/
  | skip {t c : BlockId} {x : Operand} {k : Option Bool}
      (ha : p.lastAction? b = some (.branch x t none k)) (hk : k ≠ some true) (h : p.Completes b c) :
      Transfers p b c
  | start {l : Loop} (ha : p.lastAction? b = some (.loop l)) (hr : l.rounds ≠ .none) :
      Transfers p b l.first
  /-- Past a loop that is eliminated or that goes over nothing. -/
  | pass {l : Loop} {c : BlockId} (ha : p.lastAction? b = some (.loop l))
      (hr : l.rounds = .none ∨ l.test? = none) (h : p.Completes b c) : Transfers p b c
  | breakLoop {q : StmtId} {c : BlockId} (ha : p.lastAction? b = some (.breakLoop q))
      (h : p.Completes (p.stmt q).block c) : Transfers p b c
  | continueLoop {q : StmtId} {l : Loop} (ha : p.lastAction? b = some (.continueLoop q))
      (hq : (p.stmt q).action = .loop l) : Transfers p b l.resumed
  /-- Behind a loop over keys or values whose last round is cut short. -/
  | finish {q : StmtId} {l : Loop} {c : BlockId} (ha : p.lastAction? b = some (.continueLoop q))
      (hq : (p.stmt q).action = .loop l) (ht : l.test? = none) (h : p.Completes (p.stmt q).block c) :
      Transfers p b c
  | fall {c : BlockId} (ha : ∀ a ∈ p.lastAction? b, a.endsBlock = false) (h : p.Completes b c) :
      Transfers p b c

/-- An execution of a function can enter a block. -/
def Enters (p : Program) (f : FuncId) (b : BlockId) : Prop :=
  ∃ e, p.firstBlock? f = some e ∧ Relation.ReflTransGen p.Transfers e b

/-- Control goes on behind every branch and loop. -/
def Joined (p : Program) : Prop :=
  ∀ b s, s ∈ (p.block b).stmts → (p.stmt s).action.blocks ≠ [] → (p.block b).next ≠ none

/-- The rules that transfers of control rely on: those of paths, statements that control does not pass
stand last, control goes on behind branches and loops, and a function lists its blocks. -/
structure Regular (p : Program) : Prop extends Structured p where
  ends : p.EndsLast
  joined : p.Joined
  listed : ∀ f, f < p.functions.size →
    (p.function f).blocks = (List.range p.blocks.size).filter fun b => (p.block b).func == f
  nextFunc : ∀ b c, (p.block b).next = some c → (p.block c).func = (p.block b).func
  ownerFunc : ∀ b q, (p.block b).parent = some q → (p.block (p.stmt q).block).func = (p.block b).func

variable {p : Program} {a b c e : BlockId} {s : StmtId}

theorem Built.regular {strict : Prop} (hp : p.Built strict) (hs : strict) (hj : ∀ s, p.IsJoined s) : p.Regular where
  toStructured := hp.structured
  ends := hp.ends hs
  joined b s hb hne := by
    obtain ⟨d, -, hd⟩ := hj s hne
    rw [(hp.home b s hb).2] at hd
    simp [hp.prev b d hd]
  listed := hp.listed
  nextFunc := hp.nextFunc
  ownerFunc := hp.ownerFunc

theorem Regular.of_reshapes {q : Program} (hp : p.Regular) (h : p.Reshapes q) : q.Regular where
  toStructured := hp.toStructured.of_reshapes h
  ends := hp.ends.of_reshapes h
  joined b s hs hne := by
    rw [h.next]
    exact hp.joined b s (h.stmts b hs) (h.blocks s ▸ hne)
  listed := by
    simpa only [function, h.functions, h.blocks_size, h.func] using hp.listed
  nextFunc := by
    simpa only [h.next, h.func] using hp.nextFunc
  ownerFunc := by
    simpa only [h.owner, h.home, h.func] using hp.ownerFunc

/-! ## The walk over chains -/

/-- The blocks of the last statement of a block that control can enter. -/
def entered (p : Program) (b : BlockId) : List BlockId :=
  match p.lastAction? b with
  | some (.branch _ t e k) =>
    (if k = some false then [] else [t]) ++ (if k = some true then [] else e.toList)
  | some (.loop l) => if l.rounds = .none then [] else l.blocks
  | _ => []

/-- A walk goes along a chain and into what control can enter. -/
def Walks (p : Program) (a c : BlockId) : Prop := (p.block a).next = some c ∨ c ∈ p.entered a

/-- A block precedes what continues its chain and what its statements own. -/
def Precedes (p : Program) (a c : BlockId) : Prop :=
  (p.block a).next = some c ∨ ∃ s ∈ (p.block a).stmts, c ∈ (p.stmt s).action.blocks

theorem mem_of_lastAction? {x : Action} (h : p.lastAction? b = some x) :
    ∃ s ∈ (p.block b).stmts, (p.block b).stmts.getLast? = some s ∧ (p.stmt s).action = x := by
  obtain ⟨s, hs, hx⟩ := Option.map_eq_some_iff.mp h
  exact ⟨s, List.mem_of_getLast? hs, hs, hx⟩

theorem lastAction?_of_mem (hp : p.EndsLast) (hs : s ∈ (p.block b).stmts)
    (he : (p.stmt s).action.endsBlock = true) : p.lastAction? b = some (p.stmt s).action := by
  rw [lastAction?, hp b s hs he]
  rfl

/-- What control can enter is owned. -/
theorem exists_owner_of_entered (h : c ∈ p.entered a) :
    ∃ s ∈ (p.block a).stmts, c ∈ (p.stmt s).action.blocks := by
  unfold entered at h
  split at h
  · next x t e k ha =>
    obtain ⟨s, hs, -, hx⟩ := mem_of_lastAction? ha
    refine ⟨s, hs, ?_⟩
    rw [hx, Action.blocks]
    rcases List.mem_append.mp h with h | h
    · split at h
      · cases h
      · rw [List.mem_singleton.mp h]
        exact List.mem_cons_self
    · split at h
      · cases h
      · exact List.mem_cons_of_mem _ h
  · next l ha =>
    obtain ⟨s, hs, -, hx⟩ := mem_of_lastAction? ha
    refine ⟨s, hs, ?_⟩
    rw [hx]
    split at h
    · cases h
    · exact h
  · cases h

theorem Walks.precedes (h : p.Walks a c) : p.Precedes a c := h.imp_right exists_owner_of_entered

/-- A block is directly preceded by one block. -/
theorem Structured.precedes_unique (hp : p.Structured) {a' : BlockId} (h : p.Precedes a c) (h' : p.Precedes a' c) :
    a = a' := by
  rcases h with h | ⟨s, hs, hc⟩
  · rcases h' with h' | ⟨s', hs', hc'⟩
    · exact Option.some.inj ((hp.next _ _ h).2.1.symm.trans (hp.next _ _ h').2.1)
    · exact absurd h (hp.not_next_of_owned hs' hc')
  · rcases h' with h' | ⟨s', hs', hc'⟩
    · exact absurd h' (hp.not_next_of_owned hs hc)
    · obtain rfl := Option.some.inj ((hp.owned _ _ _ hs hc).symm.trans (hp.owned _ _ _ hs' hc'))
      rw [← (hp.home _ _ hs).2, ← (hp.home _ _ hs').2]

/-- Blocks have higher numbers than those that precede them. -/
theorem Structured.lt_of_precedes (hp : p.Structured) (h : p.Precedes a c) : a < c := by
  rcases h with h | ⟨s, hs, hc⟩
  · exact (hp.next _ _ h).1
  · have := hp.descends _ _ (hp.owned _ _ _ hs hc)
    rwa [(hp.home _ _ hs).2] at this

/-- Nothing precedes the entry of a function. -/
theorem Structured.not_precedes_entry (hp : p.Structured) (he : p.firstBlock? f = some e) : ¬ p.Precedes a e := by
  obtain ⟨hparent, hprev⟩ := hp.entry _ _ he
  rintro (h | ⟨s, hs, hc⟩)
  · simp [(hp.next _ _ h).2.1] at hprev
  · simp [hp.owned _ _ _ hs hc] at hparent

theorem precedes_of_onChain {h : BlockId} (hb : p.OnChain h b) : Relation.ReflTransGen p.Precedes h b := by
  induction hb with
  | head => exact .refl
  | next _ hd ih => exact ih.tail (.inl hd)

/-- A block on a walk from an entry is on the chain of the entry, or on one that the walk went into. -/
theorem exists_owner_of_walk (h : Relation.ReflTransGen p.Walks e b) :
    p.OnChain e b ∨ ∃ a h, Relation.ReflTransGen p.Walks e a ∧ h ∈ p.entered a ∧ p.OnChain h b := by
  induction h with
  | refl => exact .inl (.head e)
  | @tail b c hw h ih =>
    rcases h with h | h
    · rcases ih with ih | ⟨a, x, ha, hx, hb⟩
      · exact .inl (.next ih h)
      · exact .inr ⟨a, x, ha, hx, .next hb h⟩
    · exact .inr ⟨b, c, hw, h, .head c⟩

/-- The block of the statement that owns a block on a walk is on the walk, and control can enter what the
block lies in. -/
theorem Regular.walk_owner (hp : p.Regular) (he : p.firstBlock? f = some e)
    (h : Relation.ReflTransGen p.Walks e b) (hs : (p.block b).parent = some s) :
    Relation.ReflTransGen p.Walks e (p.stmt s).block ∧ s ∈ (p.block (p.stmt s).block).stmts ∧
      Relation.ReflTransGen p.Precedes (p.stmt s).block b ∧
      ∃ h ∈ p.entered (p.stmt s).block, p.OnChain h b := by
  rcases exists_owner_of_walk h with hb | ⟨a, x, ha, hx, hb⟩
  · rw [hp.toCoherent.parent_of_onChain hb, (hp.entry _ _ he).1] at hs
    cases hs
  · obtain ⟨s', hs', hx'⟩ := exists_owner_of_entered hx
    obtain rfl := Option.some.inj (hs.symm.trans (hp.parent_of_owned hs' hx' hb))
    obtain rfl := (hp.home _ _ hs').2
    exact ⟨ha, hs', .head (.inr ⟨s, hs', hx'⟩) (precedes_of_onChain hb), x, hx, hb⟩

/-- A loop that the walk goes into has rounds. -/
theorem mem_entered_of_loop {l : Loop} (ha : p.lastAction? a = some (.loop l)) :
    c ∈ p.entered a ↔ l.rounds ≠ .none ∧ c ∈ l.blocks := by
  rw [entered, ha]
  by_cases h : l.rounds = .none <;> simp [h]

/-- The block of the loop of a jump is on the walk, and so are the chains of the loop. -/
theorem Regular.walk_loop (hp : p.Regular) (he : p.firstBlock? f = some e)
    (h : Relation.ReflTransGen p.Walks e b) (hs : p.Innermost (p.block b).parent s) :
    Relation.ReflTransGen p.Walks e (p.stmt s).block ∧ Relation.ReflTransGen p.Precedes (p.stmt s).block b ∧
      s ∈ (p.block (p.stmt s).block).stmts ∧
      ∀ l, (p.stmt s).action = .loop l → ∀ c ∈ l.blocks, c ∈ p.entered (p.stmt s).block := by
  generalize hx : (p.block b).parent = x at hs
  induction hs generalizing b with
  | loop hq =>
    obtain ⟨hw, hm, hb, y, hy, -⟩ := hp.walk_owner he h hx
    refine ⟨hw, hb, hm, fun l hl c hc => ?_⟩
    have hlast := lastAction?_of_mem hp.ends hm (by rw [hl]; rfl)
    rw [hl] at hlast
    exact (mem_entered_of_loop hlast).mpr ⟨((mem_entered_of_loop hlast).mp hy).1, hc⟩
  | outward _ _ ih =>
    obtain ⟨hw, hm, hb, -⟩ := hp.walk_owner he h hx
    obtain ⟨hw', hb', hm', hl⟩ := ih hw (hp.parent _ _ hm).symm
    exact ⟨hw', hb'.trans hb, hm', hl⟩

/-- Behind a branch or a loop control goes along the chain. -/
theorem Regular.next_of_completes (hp : p.Regular) (hs : s ∈ (p.block b).stmts)
    (hne : (p.stmt s).action.blocks ≠ []) (h : p.Completes b c) : (p.block b).next = some c := by
  have hn := hp.joined b s hs hne
  cases h with
  | along h => exact h
  | join he | turn he | leave he => exact absurd he hn

private theorem blocks_ne_nil_of_isLoop {x : Action} {l : Loop} (h : x = .loop l) : x.blocks ≠ [] := by
  rw [h]
  exact List.ne_nil_of_mem l.first_mem_blocks

/-- A transfer of control is a step of the walk from the block, or from one around it. -/
theorem Regular.exists_walks (hp : p.Regular) (he : p.firstBlock? f = some e)
    (hb : Relation.ReflTransGen p.Walks e b) (h : p.Transfers b c) :
    ∃ a, Relation.ReflTransGen p.Walks e a ∧ Relation.ReflTransGen p.Precedes a b ∧ p.Walks a c := by
  have hself : ∀ {c}, p.Walks b c → ∃ a, Relation.ReflTransGen p.Walks e a ∧
      Relation.ReflTransGen p.Precedes a b ∧ p.Walks a c := fun hc => ⟨b, hb, .refl, hc⟩
  have hjump : ∀ {q x}, p.lastAction? b = some x → x.jump? = some q →
      p.Innermost (p.block b).parent q := by
    intro q x hx hj
    obtain ⟨s, hs, -, rfl⟩ := mem_of_lastAction? hx
    rw [← hp.parent b s hs]
    exact hp.jump b s q hs hj
  cases h with
  | thenArm ha hk => exact hself (.inr (by simp [entered, ha, hk]))
  | elseArm ha hk => exact hself (.inr (by simp [entered, ha, hk]))
  | skip ha _ h =>
    obtain ⟨s, hs, -, hx⟩ := mem_of_lastAction? ha
    exact hself (.inl (hp.next_of_completes hs (by simp [hx, Action.blocks]) h))
  | start ha hr => exact hself (.inr ((mem_entered_of_loop ha).mpr ⟨hr, Loop.first_mem_blocks _⟩))
  | pass ha _ h =>
    obtain ⟨s, hs, -, hx⟩ := mem_of_lastAction? ha
    exact hself (.inl (hp.next_of_completes hs (blocks_ne_nil_of_isLoop hx) h))
  | breakLoop ha h =>
    have hinner := hjump ha rfl
    obtain ⟨hw, hh, hm, -⟩ := hp.walk_loop he hb hinner
    obtain ⟨l, hl⟩ := hinner.exists_loop
    exact ⟨_, hw, hh, .inl (hp.next_of_completes hm (blocks_ne_nil_of_isLoop hl) h)⟩
  | continueLoop ha hq =>
    obtain ⟨hw, hh, -, hl⟩ := hp.walk_loop he hb (hjump ha rfl)
    exact ⟨_, hw, hh, .inr (hl _ hq _ (Loop.resumed_mem_blocks _))⟩
  | finish ha hq _ h =>
    obtain ⟨hw, hh, hm, -⟩ := hp.walk_loop he hb (hjump ha rfl)
    exact ⟨_, hw, hh, .inl (hp.next_of_completes hm (blocks_ne_nil_of_isLoop hq) h)⟩
  | fall _ h =>
    cases h with
    | along hn => exact hself (.inl hn)
    | join _ hs ha h =>
      obtain ⟨hw, hm, hh, -⟩ := hp.walk_owner he hb hs
      exact ⟨_, hw, hh, .inl (hp.next_of_completes hm (by simp [ha, Action.blocks]) h)⟩
    | turn _ hs ha =>
      obtain ⟨hw, hh, -, hl⟩ := hp.walk_loop he hb (by rw [hs]; exact .loop (by rw [ha]; rfl))
      exact ⟨_, hw, hh, .inr (hl _ ha _ (Loop.following_mem_blocks _ _))⟩
    | leave _ hs ha _ _ _ _ h =>
      obtain ⟨hw, hm, hh, -⟩ := hp.walk_owner he hb hs
      exact ⟨_, hw, hh, .inl (hp.next_of_completes hm (blocks_ne_nil_of_isLoop ha) h)⟩

/-- What an execution enters is on the walk from the entry. -/
theorem Regular.walk_of_transfers (hp : p.Regular) (he : p.firstBlock? f = some e)
    (h : Relation.ReflTransGen p.Transfers e b) : Relation.ReflTransGen p.Walks e b := by
  induction h with
  | refl => exact .refl
  | tail _ ht ih =>
    obtain ⟨a, ha, -, hc⟩ := hp.exists_walks he ih ht
    exact ha.tail hc

/-- An execution enters a block only behind those that precede it. -/
theorem Regular.enters_of_precedes (hp : p.Regular) (he : p.firstBlock? f = some e)
    (h : Relation.ReflTransGen p.Transfers e b) (hx : Relation.ReflTransGen p.Precedes a b) :
    Relation.ReflTransGen p.Transfers e a := by
  induction h with
  | refl =>
    rcases hx.cases_tail with rfl | ⟨c, -, hc⟩
    · exact .refl
    · exact absurd hc (hp.toStructured.not_precedes_entry he)
  | @tail b c hb ht ih =>
    rcases hx.cases_tail with rfl | ⟨d, hd, hdc⟩
    · exact hb.tail ht
    · -- What precedes it last is the block from which the walk gets there, and that one precedes `b`.
      obtain ⟨d', -, hd', hw⟩ := hp.exists_walks he (hp.walk_of_transfers he hb) ht
      obtain rfl := hp.toStructured.precedes_unique hdc hw.precedes
      exact ih (hd.trans hd')

end Program

end ScriptOptimizer.IR

namespace ScriptOptimizer

open IR

/-- The program of a script whose loops start with declarations or expressions obeys the rules, whatever
passes have run over it. -/
theorem Pass.applyAll_regular {x : Script} {p : Program} (h : x.lower = .ok p) (hx : x.All (startsPlain · = true))
    (forSize : Bool) (passes : List Pass) : (Pass.applyAll forSize passes p).Regular := by
  obtain ⟨r, names, t, hr, ht, rfl⟩ := x.lower_ok h
  have hp := (Lowering.script_built ht).regular (hx.of_resolve hr) (Lowering.script_joined ht)
  exact hp.of_reshapes (Pass.reshapes_applyAll forSize passes hp.toCoherent)

end ScriptOptimizer
