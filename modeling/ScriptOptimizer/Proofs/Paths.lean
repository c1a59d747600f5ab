import ScriptOptimizer.Proofs.WellFormedness

/-!
# Paths of control

A run of a function enters blocks and runs their statements one after the other. At a statement that
control does not pass, and at the end of a block, it takes one of the steps that branches, loops and
jumps allow. `Done` says, from the structure of a program alone, that an event has happened whenever
control reaches a point. Such an event has happened on every run, and since then control has entered no
block at whose start it could be missing.
-/

namespace ScriptOptimizer.IR

/-- What happens on a run. -/
inductive Event where
  | enter (b : BlockId)
  | run (s : StmtId)
deriving DecidableEq

namespace Loop

/-- The block that starts every round of a loop. -/
def first (l : Loop) : BlockId :=
  match l.head with
  | .tested false test _ => test
  | _ => l.body

/-- The chain that follows a chain of a loop. -/
def following (l : Loop) (h : BlockId) : BlockId :=
  match l.head with
  | .tested _ test _ => if h = test then l.body else test
  | .iterated .. => l.body

/-- Whether control can leave a loop at the end of a chain of it. -/
def endsAt (l : Loop) (h : BlockId) : Bool :=
  match l.head with
  | .tested _ test _ => h == test
  | .iterated .. => true

/-- The chain with which a loop goes on when a round is cut short. -/
def resumed (l : Loop) : BlockId :=
  match l.head with
  | .tested _ test _ => test
  | .iterated .. => l.body

theorem first_mem_blocks (l : Loop) : l.first ∈ l.blocks := by
  obtain ⟨head, body, rounds⟩ := l
  cases head with
  | tested behind => cases behind <;> simp [first, blocks]
  | iterated => simp [first, blocks]

theorem following_mem_blocks (l : Loop) (h : BlockId) : l.following h ∈ l.blocks := by
  obtain ⟨head, body, rounds⟩ := l
  cases head with
  | tested behind test =>
    by_cases ht : h = test
    · cases behind <;> simp [following, blocks, ht]
    · cases behind <;> simp [following, blocks, ht]
  | iterated => simp [following, blocks]

theorem resumed_mem_blocks (l : Loop) : l.resumed ∈ l.blocks := by
  obtain ⟨head, body, rounds⟩ := l
  cases head with
  | tested behind => cases behind <;> simp [resumed, blocks]
  | iterated => simp [resumed, blocks]

end Loop

namespace Program

variable {h : BlockId}

/-- A statement of a block at which control goes to the start of another block. -/
inductive Leads (p : Program) (b : BlockId) (s : StmtId) : BlockId → Prop where
  /-- Into an arm of a branch. -/
  | arm {c t : BlockId} {x : Operand} {e : Option BlockId} {k : Option Bool}
      (ha : (p.stmt s).action = .branch x t e k) (hc : c ∈ t :: e.toList) : Leads p b s c
  /-- Past a branch with one arm. -/
  | skip {c t : BlockId} {x : Operand} {k : Option Bool}
      (ha : (p.stmt s).action = .branch x t none k) (hn : (p.block b).next = some c) : Leads p b s c
  /-- Into a loop. -/
  | start {l : Loop} (ha : (p.stmt s).action = .loop l) : Leads p b s l.first
  /-- Past a loop over nothing. -/
  | pass {c : BlockId} {l : Loop} (ha : (p.stmt s).action = .loop l) (ht : l.test? = none)
      (hn : (p.block b).next = some c) : Leads p b s c
  | breakLoop {c : BlockId} {q : StmtId} (ha : (p.stmt s).action = .breakLoop q)
      (hn : (p.block (p.stmt q).block).next = some c) : Leads p b s c
  | continueLoop {q : StmtId} {l : Loop} (ha : (p.stmt s).action = .continueLoop q)
      (hq : (p.stmt q).action = .loop l) : Leads p b s l.resumed
  /-- Behind a loop over keys or values whose last round is cut short. -/
  | finish {c : BlockId} {q : StmtId} {l : Loop} (ha : (p.stmt s).action = .continueLoop q)
      (hq : (p.stmt q).action = .loop l) (ht : l.test? = none)
      (hn : (p.block (p.stmt q).block).next = some c) : Leads p b s c

/-- Control goes from the end of a block to the start of another. -/
inductive Falls (p : Program) (b : BlockId) : BlockId → Prop where
  | along {c : BlockId} (hn : (p.block b).next = some c) : Falls p b c
  /-- Behind a branch, at the end of an arm of it. -/
  | join {c t : BlockId} {s : StmtId} {x : Operand} {e : Option BlockId} {k : Option Bool}
      (he : (p.block b).next = none) (hp : (p.block b).parent = some s)
      (ha : (p.stmt s).action = .branch x t e k) (hn : (p.block (p.stmt s).block).next = some c) :
      Falls p b c
  /-- Between the chains of a loop. -/
  | turn {h : BlockId} {s : StmtId} {l : Loop} (he : (p.block b).next = none)
      (hp : (p.block b).parent = some s) (ha : (p.stmt s).action = .loop l) (hh : h ∈ l.blocks)
      (hb : p.OnChain h b) : Falls p b (l.following h)
  /-- Behind a loop. -/
  | leave {c h : BlockId} {s : StmtId} {l : Loop} (he : (p.block b).next = none)
      (hp : (p.block b).parent = some s) (ha : (p.stmt s).action = .loop l) (hh : h ∈ l.blocks)
      (hb : p.OnChain h b) (hl : l.endsAt h = true) (hn : (p.block (p.stmt s).block).next = some c) :
      Falls p b c

/-- A run of a function: what has happened, the last event first, the block that control is in, and the
statements of it that are still to run. -/
inductive Runs (p : Program) (f : FuncId) : List Event → BlockId → List StmtId → Prop where
  | start {b : BlockId} (hb : p.firstBlock? f = some b) : Runs p f [.enter b] b (p.block b).stmts
  | stmt {es : List Event} {b : BlockId} {s : StmtId} {rest : List StmtId}
      (h : Runs p f es b (s :: rest)) (hs : (p.stmt s).action.endsBlock = false) :
      Runs p f (.run s :: es) b rest
  | jump {es : List Event} {b c : BlockId} {s : StmtId} {rest : List StmtId}
      (h : Runs p f es b (s :: rest)) (hs : p.Leads b s c) :
      Runs p f (.enter c :: .run s :: es) c (p.block c).stmts
  | fall {es : List Event} {b c : BlockId} (h : Runs p f es b []) (hb : p.Falls b c) :
      Runs p f (.enter c :: es) c (p.block c).stmts

/-- A block lies inside what a statement owns. -/
inductive Within (p : Program) (q : StmtId) : BlockId → Prop where
  | inner {b : BlockId} (hb : (p.block b).parent = some q) : Within p q b
  | outward {b : BlockId} {r : StmtId} (hb : (p.block b).parent = some r)
      (hr : Within p q (p.stmt r).block) : Within p q b

/-- The statements around a block stand in blocks themselves. -/
inductive Seated (p : Program) : BlockId → Prop where
  | top {b : BlockId} (hb : (p.block b).parent = none) : Seated p b
  | inner {b : BlockId} {q : StmtId} (hb : (p.block b).parent = some q)
      (hq : q ∈ (p.block (p.stmt q).block).stmts) (h : Seated p (p.stmt q).block) : Seated p b

/-- Whenever control is in a block and has run some statements of it, a statement has run: it is among
them, or it has run before the statement that owns the chain of the block, in the block before, or at
the end of the test in front of the body of a loop. -/
inductive Done (p : Program) (d : StmtId) : BlockId → List StmtId → Prop where
  | ran {b : BlockId} {xs : List StmtId} (hd : d ∈ xs) : Done p d b xs
  | outer {b : BlockId} {xs ys zs : List StmtId} {q : StmtId} (hp : (p.block b).parent = some q)
      (hb : (p.block b).prev = none) (hq : (p.block (p.stmt q).block).stmts = ys ++ q :: zs)
      (h : Done p d (p.stmt q).block ys) : Done p d b xs
  | along {b c : BlockId} {xs : List StmtId} (hn : (p.block c).next = some b)
      (h : Done p d c (p.block c).stmts) : Done p d b xs
  | tested {b y test a : BlockId} {xs : List StmtId} {q : StmtId} {x : Operand} {r : Rounds}
      (hq : q ∈ (p.block a).stmts) (ha : (p.stmt q).action = .loop ⟨.tested false test x, b, r⟩)
      (hy : p.OnChain test y) (he : (p.block y).next = none) (h : Done p d y (p.block y).stmts) :
      Done p d b xs

/-- The rules that paths of control rely on. -/
structure Structured (p : Program) : Prop extends Coherent p where
  owners : p.OwnersLast
  distinct : ∀ s, (p.stmt s).action.blocks.Nodup
  heads : ∀ b s h, s ∈ (p.block b).stmts → h ∈ (p.stmt s).action.blocks → (p.block h).prev = none
  descends : ∀ b q, (p.block b).parent = some q → (p.stmt q).block < b
  entry : ∀ f b, p.firstBlock? f = some b → (p.block b).parent = none ∧ (p.block b).prev = none

variable {p : Program} {b c : BlockId} {xs ys rest : List StmtId} {d q s : StmtId}

/-- Lowered programs obey the rules of paths. -/
theorem Built.structured {strict : Prop} (hp : p.Built strict) : p.Structured where
  toCoherent := hp.coherent
  owners := hp.owners
  distinct := hp.distinct
  heads b s h hs hh := (hp.owned b s h hs hh).2
  descends b q hb := (hp.blockOwner b q hb).2
  entry _ _ hb := hp.entry hb

/-- Steps of the optimizer keep the rules of paths. -/
theorem Structured.of_reshapes {q : Program} (hp : p.Structured) (h : p.Reshapes q) : q.Structured where
  toCoherent := hp.toCoherent.of_reshapes h
  owners b s hs hne := by
    rw [h.blocks] at hne
    have hends : (p.stmt s).action.endsBlock = true := by
      cases he : (p.stmt s).action.endsBlock with
      | true => rfl
      | false => exact (hne (Action.blocks_of_not_endsBlock he)).elim
    exact h.last b s hs hends (hp.owners b s (h.stmts b hs) hne)
  distinct s := by
    rw [h.blocks]
    exact hp.distinct s
  heads b s x hs hx := by
    rw [h.blocks] at hx
    rw [h.prev]
    exact hp.heads b s x (h.stmts b hs) hx
  descends b x hb := by
    rw [h.owner] at hb
    rw [h.home]
    exact hp.descends b x hb
  entry f b hb := by
    rw [h.owner, h.prev]
    refine hp.entry f b ?_
    rw [← hb, firstBlock?, firstBlock?, function, function, h.functions]

/-! ## Blocks inside statements -/

/-- Where a block lies depends only on what owns it. -/
theorem Within.of_parent (h : p.Within q b) (hc : (p.block c).parent = (p.block b).parent) :
    p.Within q c := by
  cases h with
  | inner hb => exact .inner (hc.trans hb)
  | outward hb hr => exact .outward (hc.trans hb) hr

theorem Seated.of_parent (h : p.Seated b) (hc : (p.block c).parent = (p.block b).parent) :
    p.Seated c := by
  cases h with
  | top hb => exact .top (hc.trans hb)
  | inner hb hq h => exact .inner (hc.trans hb) hq h

/-- A statement around a block stands in a block. -/
theorem Seated.of_within (h : p.Seated b) (hq : p.Within q b) :
    q ∈ (p.block (p.stmt q).block).stmts ∧ p.Seated (p.stmt q).block := by
  induction hq with
  | inner hb =>
    cases h with
    | top ht => simp [hb] at ht
    | inner hb' hm h =>
      obtain rfl := Option.some.inj (hb.symm.trans hb')
      exact ⟨hm, h⟩
  | outward hb _ ih =>
    cases h with
    | top ht => simp [hb] at ht
    | inner hb' _ h =>
      obtain rfl := Option.some.inj (hb.symm.trans hb')
      exact ih h

/-- What lies inside a statement comes behind its block. -/
theorem Structured.lt_of_within (hp : p.Structured) (h : p.Within q b) : (p.stmt q).block < b := by
  induction h with
  | inner hb => exact hp.descends _ _ hb
  | outward hb _ ih => exact Nat.lt_trans ih (hp.descends _ _ hb)

/-- The innermost loop around a block contains it. -/
theorem Structured.within_of_innermost (hp : p.Structured) (h : p.Seated b)
    (hq : p.Innermost (p.block b).parent q) : p.Within q b := by
  generalize hx : (p.block b).parent = x at hq
  induction hq generalizing b with
  | loop => exact .inner hx
  | outward _ _ ih =>
    obtain ⟨hm, hs⟩ := h.of_within (.inner hx)
    exact .outward hx (ih hs (hp.parent _ _ hm).symm)

/-- The loop of a jump lies around it. -/
theorem Structured.within_of_jump (hp : p.Structured) (h : p.Seated b) (hs : s ∈ (p.block b).stmts)
    (hj : (p.stmt s).action.jump? = some q) : p.Within q b := by
  refine hp.within_of_innermost h ?_
  rw [← hp.parent b s hs]
  exact hp.jump b s q hs hj

/-- The loop of a jump is a loop. -/
theorem Innermost.exists_loop {x : Option StmtId} (h : p.Innermost x q) :
    ∃ l, (p.stmt q).action = .loop l := by
  induction h with
  | loop hq => exact Action.exists_of_isLoop hq
  | outward _ _ ih => exact ih

/-- The blocks of the chain of an owned block lie inside its owner. -/
theorem Structured.parent_of_owned (hp : p.Structured) {a : BlockId} (hs : s ∈ (p.block a).stmts)
    (hh : h ∈ (p.stmt s).action.blocks) (hb : p.OnChain h b) : (p.block b).parent = some s :=
  (hp.toCoherent.parent_of_onChain hb).trans (hp.owned a s h hs hh)

/-- A block that a statement owns continues no other. -/
theorem Structured.not_next_of_owned (hp : p.Structured) {a : BlockId} (hs : s ∈ (p.block a).stmts)
    (hb : b ∈ (p.stmt s).action.blocks) : (p.block c).next ≠ some b := by
  intro hn
  have hprev := (hp.next _ _ hn).2.1
  rw [hp.heads _ _ _ hs hb] at hprev
  cases hprev

/-- A chain holds the blocks of the chain that starts behind its head. -/
theorem OnChain.of_next (hb : p.OnChain c b) (hc : (p.block h).next = some c) : p.OnChain h b := by
  induction hb with
  | head => exact .next (.head h) hc
  | next _ hd ih => exact .next ih hd

/-- A chain starts with its head and goes on with the block behind it. -/
theorem OnChain.cases_next (hb : p.OnChain h b) : b = h ∨ ∃ c, (p.block h).next = some c ∧ p.OnChain c b := by
  induction hb with
  | head => exact .inl rfl
  | next hc hd ih =>
    rcases ih with rfl | ⟨x, hx, hxc⟩
    · exact .inr ⟨_, hd, .head _⟩
    · exact .inr ⟨x, hx, .next hxc hd⟩

/-- Of two blocks of a chain one is ahead of the other. -/
private theorem OnChain.total (hb : p.OnChain h b) (hc : p.OnChain h c) : p.OnChain b c ∨ p.OnChain c b := by
  induction hb with
  | head => exact .inl hc
  | next _ hy ih =>
    rcases ih with hxc | hcx
    · rcases hxc.cases_next with rfl | ⟨z, hz, hzc⟩
      · exact .inr (.next (.head _) hy)
      · obtain rfl := Option.some.inj (hy.symm.trans hz)
        exact .inl hzc
    · exact .inr (.next hcx hy)

theorem OnChain.end_unique (hb : p.OnChain h b) (hc : p.OnChain h c) (hbn : (p.block b).next = none)
    (hcn : (p.block c).next = none) : b = c := by
  rcases hb.total hc with h | h
  · rcases h.cases_next with rfl | ⟨z, hz, -⟩
    · rfl
    · simp [hbn] at hz
  · rcases h.cases_next with rfl | ⟨z, hz, -⟩
    · rfl
    · simp [hcn] at hz

/-- A statement stands in its block once, behind the same statements. -/
theorem Structured.before_unique (hp : p.Structured) {zs : List StmtId}
    (hs : (p.block b).stmts = xs ++ s :: rest) (hs' : (p.block b).stmts = ys ++ s :: zs) : xs = ys := by
  have hnodup := hp.nodup b
  rw [hs] at hs' hnodup
  have hbehind := (List.nodup_cons.mp (List.nodup_append.mp hnodup).2.1).1
  rcases List.append_eq_append_iff.mp hs' with ⟨as, rfl, has⟩ | ⟨as, rfl, has⟩
  · cases as with
    | nil => simp
    | cons a as =>
      obtain ⟨rfl, rfl⟩ := List.cons.inj has
      exact (hbehind List.mem_append_cons_self).elim
  · cases as with
    | nil => simp
    | cons a as =>
      obtain ⟨rfl, -⟩ := List.cons.inj has
      exact ((List.nodup_append.mp hnodup).2.2 s List.mem_append_cons_self s
        List.mem_cons_self rfl).elim

/-- Test and body of a loop are different blocks. -/
theorem Structured.test_ne_body (hp : p.Structured) {behind : Bool} {test : BlockId} {x : Operand}
    {r : Rounds} (ha : (p.stmt q).action = .loop ⟨.tested behind test x, b, r⟩) : test ≠ b := by
  have hd := hp.distinct q
  rw [ha] at hd
  cases behind with
  | false => simpa [Action.blocks, Loop.blocks] using hd
  | true => exact Ne.symm (by simpa [Action.blocks, Loop.blocks] using hd)

/-! ## What has been done -/

theorem Done.mono (h : p.Done d b xs) (hxs : xs ⊆ ys) : p.Done d b ys := by
  cases h with
  | ran hd => exact .ran (hxs hd)
  | outer hp hb hq h => exact .outer hp hb hq h
  | along hn h => exact .along hn h
  | tested hq ha hy he h => exact .tested hq ha hy he h

theorem Done.of_start (h : p.Done d b []) : p.Done d b xs := h.mono (List.nil_subset xs)

/-- What has been done behind a statement was done before, unless the statement does it. -/
theorem Done.of_append (h : p.Done d b (xs ++ [s])) : d = s ∨ p.Done d b xs := by
  cases h with
  | ran hd =>
    rcases List.mem_append.mp hd with hd | hd
    · exact .inr (.ran hd)
    · exact .inl (List.mem_singleton.mp hd)
  | outer hp hb hq h => exact .inr (.outer hp hb hq h)
  | along hn h => exact .inr (.along hn h)
  | tested hq ha hy he h => exact .inr (.tested hq ha hy he h)

/-- What has been done at the start of a chain has been done in all of it. -/
theorem Done.of_onChain (hd : p.Done d h []) (hb : p.OnChain h b) : p.Done d b [] := by
  induction hb with
  | head => exact hd
  | next _ hn ih => exact .along hn ih.of_start

/-- What has been done before a statement has been done in the blocks that it owns. -/
theorem Structured.done_of_parent (hp : p.Structured) {zs : List StmtId}
    (hb : (p.block b).parent = some q) (hq : (p.block (p.stmt q).block).stmts = ys ++ q :: zs)
    (hd : p.Done d (p.stmt q).block ys) : p.Done d b [] := by
  obtain ⟨h, hh, hc⟩ := hp.toCoherent.exists_head b
  refine Done.of_onChain (.outer ?_ hh hq hd) hc
  rw [← hp.toCoherent.parent_of_onChain hc]
  exact hb

/-- What has been done before a statement has been done everywhere inside it. -/
theorem Structured.done_of_within (hp : p.Structured) {zs : List StmtId} (hs : p.Seated b)
    (hb : p.Within q b) (hq : (p.block (p.stmt q).block).stmts = ys ++ q :: zs)
    (hd : p.Done d (p.stmt q).block ys) : p.Done d b [] := by
  induction hb with
  | inner hb => exact hp.done_of_parent hb hq hd
  | outward hb _ ih =>
    obtain ⟨hm, hs'⟩ := hs.of_within (.inner hb)
    obtain ⟨us, vs, hus⟩ := List.append_of_mem hm
    exact hp.done_of_parent hb hus (ih hs').of_start

/-- What has been done at the end of a block with an owner at its end was done before the owner. -/
theorem Structured.done_before_owner (hp : p.Structured) (hd : (p.stmt d).action.blocks = [])
    (hs : s ∈ (p.block b).stmts) (hne : (p.stmt s).action.blocks ≠ [])
    (h : p.Done d b (p.block b).stmts) : ∃ ys, (p.block b).stmts = ys ++ [s] ∧ p.Done d b ys := by
  obtain ⟨ys, hys⟩ := List.getLast?_eq_some_iff.mp (hp.owners b s hs hne)
  rw [hys] at h
  rcases h.of_append with rfl | h
  · exact (hne hd).elim
  · exact ⟨ys, hys, h⟩

/-- What has been done behind a statement that owns blocks has been done everywhere inside it. -/
theorem Structured.done_inside (hp : p.Structured) (hd : (p.stmt d).action.blocks = [])
    (hs : p.Seated b) (hb : p.Within q b) (hne : (p.stmt q).action.blocks ≠ [])
    (h : p.Done d (p.stmt q).block (p.block (p.stmt q).block).stmts) : p.Done d b [] := by
  obtain ⟨ys, hys, h⟩ := hp.done_before_owner hd (hs.of_within hb).1 hne h
  exact hp.done_of_within hs hb hys h

/-! ## Steps of control -/

/-- The ways in which control gets from a point of a block, behind the statements `xs`, to the start of
another block. -/
inductive Step (p : Program) (b : BlockId) (xs : List StmtId) (c : BlockId) : Prop where
  /-- Into a loop or an arm of a branch. -/
  | into {s : StmtId} {rest : List StmtId} (hs : (p.block b).stmts = xs ++ s :: rest)
      (hc : c ∈ (p.stmt s).action.blocks) (hf : ∀ l, (p.stmt s).action = .loop l → c = l.first)
  /-- To another chain of a loop around the block. -/
  | around {q : StmtId} {l : Loop} (hq : p.Within q b) (ha : (p.stmt q).action = .loop l)
      (hc : c ∈ l.blocks)
      (ht : ∀ test x r, l = ⟨.tested false test x, c, r⟩ → xs = (p.block b).stmts ∧
        p.OnChain test b ∧ (p.block b).next = none)
  /-- To the block behind this one, past an owner at most. -/
  | ahead (hn : (p.block b).next = some c)
      (hs : xs = (p.block b).stmts ∨
        ∃ s rest, (p.block b).stmts = xs ++ s :: rest ∧ (p.stmt s).action.blocks ≠ [])
  /-- Behind a statement around the block. -/
  | behind {q : StmtId} (hq : p.Within q b) (hne : (p.stmt q).action.blocks ≠ [])
      (hn : (p.block (p.stmt q).block).next = some c)

private theorem blocks_ne_nil_of_loop {a : Action} {l : Loop} (h : a = .loop l) : a.blocks ≠ [] := by
  rw [h]
  exact List.ne_nil_of_mem l.first_mem_blocks

private theorem blocks_ne_nil_of_branch {a : Action} {x : Operand} {t : BlockId} {e : Option BlockId}
    {k : Option Bool} (h : a = .branch x t e k) : a.blocks ≠ [] := by
  rw [h]
  exact List.cons_ne_nil _ _

/-- A statement at which control goes elsewhere takes a step. -/
theorem Structured.step_of_leads (hp : p.Structured) (hb : p.Seated b)
    (hs : (p.block b).stmts = xs ++ s :: rest) (h : p.Leads b s c) : p.Step b xs c := by
  have hm : s ∈ (p.block b).stmts := hs ▸ List.mem_append_cons_self
  cases h with
  | arm ha hc =>
    refine .into hs ?_ fun l hl => ?_
    · rw [ha]
      exact hc
    · rw [ha] at hl
      cases hl
  | skip ha hn => exact .ahead hn (.inr ⟨s, rest, hs, blocks_ne_nil_of_branch ha⟩)
  | @start l ha =>
    refine .into hs ?_ fun l' hl => ?_
    · rw [ha]
      exact l.first_mem_blocks
    · rw [ha] at hl
      cases hl
      rfl
  | pass ha _ hn => exact .ahead hn (.inr ⟨s, rest, hs, blocks_ne_nil_of_loop ha⟩)
  | @breakLoop _ q ha hn =>
    have hj : (p.stmt s).action.jump? = some q := by rw [ha]; rfl
    obtain ⟨l, hl⟩ := (hp.jump _ _ _ hm hj).exists_loop
    exact .behind (hp.within_of_jump hb hm hj) (blocks_ne_nil_of_loop hl) hn
  | @continueLoop q l ha hq =>
    have hj : (p.stmt s).action.jump? = some q := by rw [ha]; rfl
    refine .around (hp.within_of_jump hb hm hj) hq l.resumed_mem_blocks fun test x r hl => ?_
    -- A round that is cut short goes on with the test, which is not the body.
    have htest : l.resumed = test := by rw [hl]; rfl
    rw [hl] at hq
    exact (hp.test_ne_body hq htest.symm).elim
  | @finish _ q l ha hq _ hn =>
    have hj : (p.stmt s).action.jump? = some q := by rw [ha]; rfl
    exact .behind (hp.within_of_jump hb hm hj) (blocks_ne_nil_of_loop hq) hn

/-- At the end of a block control takes a step. -/
theorem Structured.step_of_falls (hp : p.Structured) (h : p.Falls b c) :
    p.Step b (p.block b).stmts c := by
  cases h with
  | along hn => exact .ahead hn (.inl rfl)
  | join _ hpar ha hn => exact .behind (.inner hpar) (blocks_ne_nil_of_branch ha) hn
  | @turn h q l he hpar ha hh hb =>
    refine .around (.inner hpar) ha (l.following_mem_blocks h) fun test x r hl => ⟨rfl, ?_, he⟩
    -- The body follows the test only.
    have hfollow : l.following h = if h = test then l.body else test := by rw [hl]; rfl
    by_cases ht : h = test
    · exact ht ▸ hb
    · rw [if_neg ht] at hfollow
      rw [hl] at ha
      exact (hp.test_ne_body ha hfollow.symm).elim
  | leave _ hpar ha _ _ _ hn => exact .behind (.inner hpar) (blocks_ne_nil_of_loop ha) hn

/-- Control stays where the statements around it stand in blocks. -/
theorem Structured.seated_of_step (hp : p.Structured) (hb : p.Seated b) (h : p.Step b xs c) :
    p.Seated c := by
  cases h with
  | @into s rest hs hc =>
    have hm : s ∈ (p.block b).stmts := hs ▸ List.mem_append_cons_self
    have hhome := (hp.home _ _ hm).2
    exact .inner (hp.owned _ _ _ hm hc) (by rw [hhome]; exact hm) (by rw [hhome]; exact hb)
  | around hq ha hc =>
    obtain ⟨hm, hs⟩ := hb.of_within hq
    exact .inner (hp.owned _ _ _ hm (by rw [ha]; exact hc)) hm hs
  | ahead hn => exact hb.of_parent (hp.next _ _ hn).2.2
  | behind hq _ hn => exact (hb.of_within hq).2.of_parent (hp.next _ _ hn).2.2

/-- What has been done at the start of a block was done before control got there. -/
theorem Structured.done_of_step (hp : p.Structured) (hd : (p.stmt d).action.blocks = [])
    (hb : p.Seated b) (h : p.Step b xs c) (hc : p.Done d c []) : p.Done d b xs := by
  cases hc with
  | ran hm => cases hm
  | @outer _ _ ys zs q hpar hprev hq hdone =>
    cases h with
    | @into s rest hs hc =>
      have hm : s ∈ (p.block b).stmts := hs ▸ List.mem_append_cons_self
      obtain rfl := Option.some.inj (hpar.symm.trans (hp.owned _ _ _ hm hc))
      rw [(hp.home _ _ hm).2] at hq hdone
      obtain rfl := hp.before_unique hq hs
      exact hdone
    | around hw ha hc =>
      obtain ⟨hm, -⟩ := hb.of_within hw
      obtain rfl := Option.some.inj (hpar.symm.trans (hp.owned _ _ _ hm (by rw [ha]; exact hc)))
      exact (hp.done_of_within hb hw hq hdone).of_start
    | ahead hn => simp [(hp.next _ _ hn).2.1] at hprev
    | behind _ _ hn => simp [(hp.next _ _ hn).2.1] at hprev
  | @along _ a _ hnext hdone =>
    have hsame : ∀ {a'}, (p.block a').next = some c → a' = a := fun hn =>
      Option.some.inj ((hp.next _ _ hn).2.1.symm.trans (hp.next _ _ hnext).2.1)
    cases h with
    | @into s rest hs hc =>
      refine (hp.not_next_of_owned (b := c) (a := b) (s := s) ?_ hc hnext).elim
      rw [hs]
      exact List.mem_append_cons_self
    | around hw ha hc =>
      exact (hp.not_next_of_owned (hb.of_within hw).1 (by rw [ha]; exact hc) hnext).elim
    | ahead hn hs =>
      obtain rfl := hsame hn
      rcases hs with rfl | ⟨s, rest, hs, hne⟩
      · exact hdone
      · have hm : s ∈ (p.block b).stmts := hs ▸ List.mem_append_cons_self
        obtain ⟨ys, hys, hdone⟩ := hp.done_before_owner hd hm hne hdone
        obtain rfl := hp.before_unique hys hs
        exact hdone
    | behind hw hne hn =>
      rw [← hsame hn] at hdone
      exact (hp.done_inside hd hb hw hne hdone).of_start
  | @tested _ y test a _ q x r hq ha hy he hdone =>
    have hmem : c ∈ (p.stmt q).action.blocks := by
      rw [ha]
      simp [Action.blocks, Loop.blocks]
    cases h with
    | @into s rest hs hc hf =>
      have hm : s ∈ (p.block b).stmts := hs ▸ List.mem_append_cons_self
      obtain rfl := Option.some.inj ((hp.owned _ _ _ hm hc).symm.trans (hp.owned _ _ _ hq hmem))
      exact (hp.test_ne_body ha (hf _ ha).symm).elim
    | @around q' l hw ha' hc ht =>
      obtain rfl := Option.some.inj ((hp.owned _ _ _ (hb.of_within hw).1
        (by rw [ha']; exact hc)).symm.trans (hp.owned _ _ _ hq hmem))
      rw [ha] at ha'
      cases ha'
      obtain ⟨rfl, hbt, hbe⟩ := ht test x r rfl
      obtain rfl := hy.end_unique hbt he hbe
      exact hdone
    | ahead hn => exact (hp.not_next_of_owned hq hmem hn).elim
    | behind _ _ hn => exact (hp.not_next_of_owned hq hmem hn).elim

/-! ## Runs -/

variable {es : List Event}

/-- The statements of a block that have run stand before those that are still to run. -/
theorem Runs.exists_ran {f : FuncId} (h : p.Runs f es b rest) : ∃ ys, (p.block b).stmts = ys ++ rest := by
  induction h with
  | start | jump | fall => exact ⟨[], rfl⟩
  | @stmt _ _ s _ _ _ ih =>
    obtain ⟨ys, hys⟩ := ih
    exact ⟨ys ++ [s], by simpa using hys⟩

/-- Control is only where the statements around it stand in blocks. -/
theorem Runs.seated (hp : p.Structured) {f : FuncId} (h : p.Runs f es b rest) : p.Seated b := by
  induction h with
  | start hb => exact .top (hp.entry _ _ hb).1
  | stmt _ _ ih => exact ih
  | jump h hs ih =>
    obtain ⟨ys, hys⟩ := h.exists_ran
    exact hp.seated_of_step ih (hp.step_of_leads ih hys hs)
  | fall _ hb ih => exact hp.seated_of_step ih (hp.step_of_falls hb)

/-- What has been done at a point has happened on every run to it, and at the start of every block that
was entered since then it has been done, too. -/
theorem Runs.exists_run (hp : p.Structured) (hd : (p.stmt d).action.blocks = []) {f : FuncId}
    (h : p.Runs f es b rest) (hb : (p.block b).stmts = xs ++ rest) (hdone : p.Done d b xs) :
    ∃ later earlier, es = later ++ .run d :: earlier ∧ ∀ c, .enter c ∈ later → p.Done d c [] := by
  induction h generalizing xs with
  | @start b hf =>
    obtain rfl : xs = [] := by simpa using hb
    obtain ⟨hpar, hprev⟩ := hp.entry _ _ hf
    cases hdone with
    | ran hm => cases hm
    | outer hq => simp [hpar] at hq
    | along hn => simp [(hp.next _ _ hn).2.1] at hprev
    | tested hq ha =>
      have hown := hp.owned _ _ b hq (by rw [ha]; simp [Action.blocks, Loop.blocks])
      simp [hpar] at hown
  | @stmt es b s rest h hs ih =>
    obtain ⟨ys, hys⟩ := h.exists_ran
    obtain rfl : xs = ys ++ [s] := by
      rw [hb, List.append_cons] at hys
      exact List.append_cancel_right hys
    rcases hdone.of_append with rfl | hdone
    · exact ⟨[], es, rfl, by simp⟩
    · obtain ⟨later, earlier, rfl, hl⟩ := ih (by simpa using hb) hdone
      exact ⟨.run s :: later, earlier, rfl, fun c hc => hl c (by simpa using hc)⟩
  | @jump es b c s rest h hs ih =>
    obtain rfl : xs = [] := by simpa using hb
    obtain ⟨ys, hys⟩ := h.exists_ran
    have hseated := h.seated hp
    obtain ⟨later, earlier, rfl, hl⟩ :=
      ih hys (hp.done_of_step hd hseated (hp.step_of_leads hseated hys hs) hdone)
    refine ⟨.enter c :: .run s :: later, earlier, rfl, fun a ha => ?_⟩
    rcases List.mem_cons.mp ha with ha | ha
    · cases ha
      exact hdone
    · exact hl a (by simpa using ha)
  | @fall es b c h hf ih =>
    obtain rfl : xs = [] := by simpa using hb
    have hseated := h.seated hp
    obtain ⟨later, earlier, rfl, hl⟩ :=
      ih (List.append_nil _).symm (hp.done_of_step hd hseated (hp.step_of_falls hf) hdone)
    refine ⟨.enter c :: later, earlier, rfl, fun a ha => ?_⟩
    rcases List.mem_cons.mp ha with ha | ha
    · cases ha
      exact hdone
    · exact hl a ha

/-! ## Rounds of loops -/

/-- A statement around the block of a statement lies around every point at which the latter has run. -/
theorem Structured.within_of_done (hp : p.Structured) (hq : p.Within q (p.stmt d).block)
    (h : p.Done d b xs) (hxs : xs ⊆ (p.block b).stmts) : p.Within q b := by
  induction h with
  | ran hm => rwa [(hp.home _ _ (hxs hm)).2] at hq
  | outer hpar _ hys _ ih => exact .outward hpar (ih (by rw [hys]; exact List.subset_append_left ..))
  | along hn _ ih => exact (ih (List.Subset.refl _)).of_parent (hp.next _ _ hn).2.2
  | @tested b y test a _ s x r hs ha hy _ _ ih =>
    have hblocks : (p.stmt s).action.blocks = [test, b] := by rw [ha]; rfl
    refine (ih (List.Subset.refl _)).of_parent ?_
    rw [hp.parent_of_owned hs (by simp [hblocks]) hy, hp.owned _ _ b hs (by simp [hblocks])]

/-- At the start of a round of a loop no statement inside it has run. -/
theorem Structured.not_done_first (hp : p.Structured) {a : BlockId} {l : Loop}
    (hq : q ∈ (p.block a).stmts) (hl : (p.stmt q).action = .loop l) (hd : p.Within q (p.stmt d).block) :
    ¬ p.Done d l.first [] := by
  have hmem : l.first ∈ (p.stmt q).action.blocks := by
    rw [hl]
    exact l.first_mem_blocks
  intro h
  cases h with
  | ran hm => cases hm
  | outer hpar _ hys h =>
    obtain rfl := Option.some.inj ((hp.owned _ _ _ hq hmem).symm.trans hpar)
    have hw := hp.within_of_done hd h (by rw [hys]; exact List.subset_append_left ..)
    exact Nat.lt_irrefl _ (hp.lt_of_within hw)
  | along hn => exact hp.not_next_of_owned hq hmem hn
  | @tested _ y test _ _ s x r hs ha hy _ h =>
    have hbody : l.first ∈ (p.stmt s).action.blocks := by
      rw [ha]
      simp [Action.blocks, Loop.blocks]
    obtain rfl := Option.some.inj ((hp.owned _ _ _ hq hmem).symm.trans (hp.owned _ _ _ hs hbody))
    have hfirst : l.first = test := congrArg Loop.first (Action.loop.inj (hl.symm.trans ha))
    exact hp.test_ne_body ha hfirst.symm

/-- What has been done at a point has happened on every run to it, in the same round of every loop
around it. -/
theorem Runs.exists_run_in_round (hp : p.Structured) (hd : (p.stmt d).action.blocks = []) {f : FuncId}
    (h : p.Runs f es b rest) (hb : (p.block b).stmts = xs ++ rest) (hdone : p.Done d b xs) :
    ∃ later earlier, es = later ++ .run d :: earlier ∧
      ∀ q l, (p.stmt q).action = .loop l → p.Within q (p.stmt d).block → .enter l.first ∉ later := by
  obtain ⟨later, earlier, hes, hl⟩ := h.exists_run hp hd hb hdone
  refine ⟨later, earlier, hes, fun q l ha hq hmem => ?_⟩
  have hw := hp.within_of_done hq hdone (by rw [hb]; exact List.subset_append_left ..)
  exact hp.not_done_first ((h.seated hp).of_within hw).1 ha hq (hl _ hmem)

end Program

end ScriptOptimizer.IR

namespace ScriptOptimizer

open IR

/-- The program of a script obeys the rules of paths, whatever passes have run over it. -/
theorem Pass.applyAll_structured {x : Script} {p : Program} (h : x.lower = .ok p) (forSize : Bool)
    (passes : List Pass) : (Pass.applyAll forSize passes p).Structured := by
  obtain ⟨r, names, t, -, ht, rfl⟩ := x.lower_ok h
  have hp := (Lowering.script_built ht).structured
  exact hp.of_reshapes (Pass.reshapes_applyAll forSize passes hp.toCoherent)

end ScriptOptimizer
