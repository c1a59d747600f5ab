import Mathlib.Tactic.SplitIfs
import ScriptOptimizer.Proofs.ControlTransfers

/-!
# The flow graph follows control

Linking the chains of a function adds edges between its blocks and changes nothing else. A walk over a
chain links every block that it meets to all blocks that control can go to from there; only the edges at
the end of the chain are left to what owns it. So every transfer of control is an edge, the search from
the entry finds what an execution enters, and marking the rest as dead spares it.
-/

namespace ScriptOptimizer.FlowGraph

open IR Program

variable {x : Operand} {y : Option BlockId} {k : Option Bool}

variable {l : Loop} {t last body : BlockId} {rounds : Rounds} {bs : List BlockId}

/-- A block without its edges. -/
def bare (b : Block) : Block := { b with succs := [], preds := [] }

/-- There is an edge from one block to another. -/
def Edges (p : Program) (b c : BlockId) : Prop := ∃ weak, (⟨c, weak⟩ : Edge) ∈ (p.block b).succs

def IsOf (p : Program) (f : FuncId) (b : BlockId) : Prop := b < p.blocks.size ∧ (p.block b).func = f

/-- Programs that differ in edges alone. -/
structure Relinks (p q : Program) : Prop where
  stmts : q.stmts = p.stmts
  functions : q.functions = p.functions
  size : q.blocks.size = p.blocks.size
  bare : ∀ b, bare (q.block b) = bare (p.block b)

/-- Only edges between blocks of a function are added, each at both its ends. -/
structure Adds (f : FuncId) (p q : Program) : Prop extends Relinks p q where
  kept : ∀ b, (p.block b).succs ⊆ (q.block b).succs
  succs : ∀ b, ∀ x ∈ (q.block b).succs, x ∈ (p.block b).succs ∨ IsOf p f x.block
  preds : ∀ b, ∀ x ∈ (q.block b).preds, x ∈ (p.block b).preds ∨ IsOf p f x.block
  count : ∀ b c weak, b < p.blocks.size → c < p.blocks.size →
    (q.block b).succs.count ⟨c, weak⟩ + (p.block c).preds.count ⟨b, weak⟩ =
      (p.block b).succs.count ⟨c, weak⟩ + (q.block c).preds.count ⟨b, weak⟩

variable {p q r : Program} {f : FuncId} {walk : Walk} {a b c e h : BlockId} {s : StmtId}

namespace Relinks

theorem next (hq : Relinks p q) (b : BlockId) : (q.block b).next = (p.block b).next := by
  simpa [FlowGraph.bare] using congrArg Block.next (hq.bare b)

theorem func (hq : Relinks p q) (b : BlockId) : (q.block b).func = (p.block b).func := by
  simpa [FlowGraph.bare] using congrArg Block.func (hq.bare b)

theorem dead (hq : Relinks p q) (b : BlockId) : (q.block b).dead = (p.block b).dead := by
  simpa [FlowGraph.bare] using congrArg Block.dead (hq.bare b)

theorem blockStmts (hq : Relinks p q) (b : BlockId) : (q.block b).stmts = (p.block b).stmts := by
  simpa [FlowGraph.bare] using congrArg Block.stmts (hq.bare b)

theorem stmt (hq : Relinks p q) : q.stmt = p.stmt := by
  funext s
  simp [Program.stmt, hq.stmts]

theorem lastAction? (hq : Relinks p q) (b : BlockId) : q.lastAction? b = p.lastAction? b := by
  rw [Program.lastAction?, Program.lastAction?, hq.blockStmts, hq.stmt]

theorem precedes (hq : Relinks p q) : q.Precedes = p.Precedes := by
  funext a c
  rw [Precedes, Precedes, hq.next, hq.blockStmts, hq.stmt]

theorem isOf (hq : Relinks p q) : IsOf q f b ↔ IsOf p f b := by rw [IsOf, IsOf, hq.size, hq.func]

theorem refl (p : Program) : Relinks p p := ⟨rfl, rfl, rfl, fun _ => rfl⟩

theorem trans (h : Relinks p q) (k : Relinks q r) : Relinks p r :=
  ⟨k.stmts.trans h.stmts, k.functions.trans h.functions, k.size.trans h.size,
    fun b => (k.bare b).trans (h.bare b)⟩

end Relinks

namespace Adds

theorem refl (f : FuncId) (p : Program) : Adds f p p :=
  ⟨.refl p, fun _ _ h => h, fun _ _ h => .inl h, fun _ _ h => .inl h, fun _ _ _ _ _ => rfl⟩

theorem trans (h : Adds f p q) (k : Adds f q r) : Adds f p r where
  toRelinks := h.toRelinks.trans k.toRelinks
  kept b _ hx := k.kept b (h.kept b hx)
  succs b x hx := (k.succs b x hx).elim (h.succs b x) fun hx => .inr (h.isOf.mp hx)
  preds b x hx := (k.preds b x hx).elim (h.preds b x) fun hx => .inr (h.isOf.mp hx)
  count b c weak hb hc := by
    have h1 := h.count b c weak hb hc
    have h2 := k.count b c weak (h.size ▸ hb) (h.size ▸ hc)
    omega

theorem edges (h : Adds f p q) (hb : Edges p b c) : Edges q b c :=
  hb.imp fun _ hw => h.kept b hw

end Adds

/-! ## Links -/

/-- What a link does to the blocks. -/
theorem block_link (source target : BlockId) (weak : Bool) (b : BlockId) :
    (link source (some target) weak p).block b =
      { p.block b with
        succs := (p.block b).succs ++
          if b = source ∧ source < p.blocks.size then [⟨target, weak⟩] else []
        preds := (p.block b).preds ++
          if b = target ∧ target < p.blocks.size then [⟨source, weak⟩] else [] } := by
  rw [link, block_modifyBlock, block_modifyBlock, blocks_size_modifyBlock]
  split_ifs <;> simp

/-- A link between blocks of a function adds an edge. -/
theorem adds_link {target : Option BlockId} (weak : Bool) (ha : IsOf p f a)
    (ht : ∀ t, target = some t → IsOf p f t) : Adds f p (link a target weak p) := by
  cases target with
  | none => exact .refl f p
  | some t =>
    refine ⟨⟨rfl, rfl, ?_, fun b => ?_⟩, fun b x hx => ?_, fun b x hx => ?_, fun b x hx => ?_,
      fun b c w hb hc => ?_⟩
    · simp [link]
    · rw [block_link]
      rfl
    · rw [block_link]
      exact List.mem_append_left _ hx
    · rw [block_link] at hx
      refine (List.mem_append.mp hx).imp_right fun hx => ?_
      split at hx
      · rw [List.mem_singleton.mp hx]
        exact ht t rfl
      · cases hx
    · rw [block_link] at hx
      refine (List.mem_append.mp hx).imp_right fun hx => ?_
      split at hx
      · rw [List.mem_singleton.mp hx]
        exact ha
      · cases hx
    · -- The edge is new at both ends or at neither.
      have hend : (if b = a ∧ a < p.blocks.size then [(⟨t, weak⟩ : Edge)] else []).count ⟨c, w⟩ =
          (if c = t ∧ t < p.blocks.size then [(⟨a, weak⟩ : Edge)] else []).count ⟨b, w⟩ := by
        by_cases hba : b = a
        · by_cases hct : c = t
          · subst hba hct
            simp [hb, hc, List.count_singleton]
          · simp [hba, hct, ha.1, Ne.symm hct]
        · by_cases hct : c = t
          · simp [hba, hct, (ht t rfl).1, Ne.symm hba]
          · simp [hba, hct]
      simp only [block_link, List.count_append, hend]
      omega

theorem edges_link (weak : Bool) (ha : a < p.blocks.size) : Edges (link a (some c) weak p) a c := by
  refine ⟨weak, ?_⟩
  rw [block_link]
  simp [ha]

/-! ## Walks over chains -/

/-- Every transfer of control from a block is an edge. -/
def Complete (p q : Program) (b : BlockId) : Prop := ∀ c, p.Transfers b c → Edges q b c

theorem Complete.of_adds (hb : Complete p q b) (h : Adds f q r) : Complete p r b :=
  fun c hc => h.edges (hb c hc)

/-- What a walk over the chain from a block on has to give: it ends at the end of the chain, and all that
it meets is linked, up to what owns the chain. -/
structure Covers (p : Program) (f : FuncId) (h : BlockId) (q : Program) (r : Linked) : Prop where
  adds : Adds f q r.program
  onChain : p.OnChain h r.last
  last : (p.block r.last).next = none
  falls : r.falls = true → ∀ x ∈ p.lastAction? r.last, x.endsBlock = false
  complete : ∀ b, Relation.ReflTransGen p.Walks h b → (b = r.last → r.falls = false) →
    Complete p r.program b

/-- A walk over a chain does what it has to. -/
def Walk.Sound (walk : Walk) (p : Program) (f : FuncId) (h : BlockId) : Prop :=
  ∀ q, Relinks p q → Covers p f h q (walk h q)

/-- Everything that a walk from a block on meets is linked. -/
structure Finishes (p : Program) (f : FuncId) (h : BlockId) (q r : Program) : Prop where
  adds : Adds f q r
  complete : ∀ b, Relation.ReflTransGen p.Walks h b → Complete p r b

/-- Behind a statement that control passes it goes on along the chain. -/
theorem completes_of_transfers (hb : ∀ x ∈ p.lastAction? b, x.endsBlock = false)
    (h : p.Transfers b c) : p.Completes b c := by
  cases h with
  | fall _ h => exact h
  | thenArm ha | elseArm ha | skip ha | start ha | pass ha | breakLoop ha | continueLoop ha | finish ha =>
    cases hb _ ha

theorem completes_of_branch (ha : p.lastAction? b = some (.branch x t y k)) (h : p.Transfers b c) :
    (c = t ∧ k ≠ some false) ∨ k ≠ some true ∧ (y = some c ∨ y = none ∧ p.Completes b c) := by
  cases h with
  | thenArm hb hk =>
    cases ha.symm.trans hb
    exact .inl ⟨rfl, hk⟩
  | elseArm hb hk =>
    cases ha.symm.trans hb
    exact .inr ⟨hk, .inl rfl⟩
  | skip hb hk h =>
    cases ha.symm.trans hb
    exact .inr ⟨hk, .inr ⟨rfl, h⟩⟩
  | fall hb => cases hb _ ha
  | start hb | pass hb | breakLoop hb | continueLoop hb | finish hb => cases ha.symm.trans hb

theorem completes_of_loop (ha : p.lastAction? b = some (.loop l)) (h : p.Transfers b c) :
    (c = l.first ∧ l.rounds ≠ .none) ∨ (l.rounds = .none ∨ l.test? = none) ∧ p.Completes b c := by
  cases h with
  | start hb hr =>
    cases ha.symm.trans hb
    exact .inl ⟨rfl, hr⟩
  | pass hb hr h =>
    cases ha.symm.trans hb
    exact .inr ⟨hr, h⟩
  | fall hb => cases hb _ ha
  | thenArm hb | elseArm hb | skip hb | breakLoop hb | continueLoop hb | finish hb =>
    cases ha.symm.trans hb

theorem completes_of_breakLoop {l : StmtId} (ha : p.lastAction? b = some (.breakLoop l))
    (h : p.Transfers b c) : p.Completes (p.stmt l).block c := by
  cases h with
  | breakLoop hb h =>
    cases ha.symm.trans hb
    exact h
  | fall hb => cases hb _ ha
  | thenArm hb | elseArm hb | skip hb | start hb | pass hb | continueLoop hb | finish hb =>
    cases ha.symm.trans hb

theorem completes_of_continueLoop {l : StmtId} {x : Loop} (ha : p.lastAction? b = some (.continueLoop l))
    (hx : (p.stmt l).action = .loop x) (h : p.Transfers b c) :
    c = x.resumed ∨ x.test? = none ∧ p.Completes (p.stmt l).block c := by
  cases h with
  | continueLoop hb hy =>
    cases ha.symm.trans hb
    cases hx.symm.trans hy
    exact .inl rfl
  | finish hb hy ht h =>
    cases ha.symm.trans hb
    cases hx.symm.trans hy
    exact .inr ⟨ht, h⟩
  | fall hb => cases hb _ ha
  | thenArm hb | elseArm hb | skip hb | start hb | pass hb | breakLoop hb => cases ha.symm.trans hb

/-- What follows the chain adds the edges at its end. -/
theorem finishes_follow (hw : walk.Sound p f h) (hq : Relinks p q) {behind : BlockId → Program → Program}
    (hb : ∀ r last, Relinks p r → p.OnChain h last → (p.block last).next = none →
      Adds f r (behind last r) ∧ ∀ c, p.Completes last c → Edges (behind last r) last c) :
    Finishes p f h q (follow walk h behind q) := by
  have hr := hw q hq
  obtain ⟨hadds, hends⟩ := hb _ _ (hq.trans hr.adds.toRelinks) hr.onChain hr.last
  unfold follow
  dsimp only
  by_cases hf : (walk h q).falls = true
  · rw [if_pos hf]
    refine ⟨hr.adds.trans hadds, fun b hb => ?_⟩
    by_cases hlast : b = (walk h q).last
    · intro c hc
      rw [hlast] at hc ⊢
      exact hends c (completes_of_transfers (hr.falls hf) hc)
    · exact (hr.complete b hb fun h => absurd h hlast).of_adds hadds
  · rw [if_neg hf]
    exact ⟨hr.adds, fun b hb => hr.complete b hb fun _ => by simpa using hf⟩

/-! ## Blocks of a function -/

theorem isOf_of_precedes (hp : p.Regular) (ha : IsOf p f a) (h : p.Precedes a c) : IsOf p f c := by
  rcases h with h | ⟨s, hs, hc⟩
  · exact ⟨p.lt_of_prev (hp.next _ _ h).2.1, (hp.nextFunc _ _ h).trans ha.2⟩
  · have hparent := hp.owned _ _ _ hs hc
    refine ⟨p.lt_of_parent hparent, ?_⟩
    rw [← hp.ownerFunc _ _ hparent, (hp.home _ _ hs).2]
    exact ha.2

theorem isOf_next (hp : p.Regular) (ha : IsOf p f a) : ∀ t, (p.block a).next = some t → IsOf p f t :=
  fun _ ht => isOf_of_precedes hp ha (.inl ht)

theorem isOf_of_walk (hp : p.Regular) (ha : IsOf p f a) (h : Relation.ReflTransGen p.Walks a b) :
    IsOf p f b := by
  induction h with
  | refl => exact ha
  | tail _ h ih => exact isOf_of_precedes hp ih h.precedes

theorem isOf_of_onChain (hp : p.Regular) (ha : IsOf p f a) (h : p.OnChain a b) : IsOf p f b := by
  induction h with
  | head => exact ha
  | next _ h ih => exact isOf_of_precedes hp ih (.inl h)

theorem mem_blocks_iff (hp : p.Regular) : b ∈ (p.function f).blocks ↔ f < p.functions.size ∧ IsOf p f b := by
  by_cases hf : f < p.functions.size
  · rw [hp.listed f hf]
    simp [IsOf, hf]
  · have hnone : (p.function f).blocks = [] := by
      rw [Program.function, Array.getD_eq_getD_getElem?, Array.getElem?_eq_none (Nat.le_of_not_lt hf)]
      rfl
    simp [hnone, hf]

/-! ## What owns a chain -/

/-- Blocks that chains of a program share lie on one of them. -/
theorem head_unique (hp : p.Structured) {h' : BlockId} {a' : BlockId} {s' : StmtId} (hs : s ∈ (p.block a).stmts)
    (hh : h ∈ (p.stmt s).action.blocks) (hb : p.OnChain h b) (hs' : s' ∈ (p.block a').stmts)
    (hh' : h' ∈ (p.stmt s').action.blocks) (hb' : p.OnChain h' b) : h = h' :=
  (hp.toCoherent.wellFormed.chain b).unique ⟨hp.heads _ _ _ hs hh, hb⟩ ⟨hp.heads _ _ _ hs' hh', hb'⟩

/-- Behind an arm control goes to what continues the block of the branch. -/
theorem next_of_arm (hp : p.Regular) (hs : s ∈ (p.block a).stmts)
    (hx : (p.stmt s).action = .branch x t y k) (hh : h ∈ t :: y.toList) (hb : p.OnChain h b)
    (he : (p.block b).next = none) (h : p.Completes b c) : (p.block a).next = some c := by
  have hmem := hh
  rw [show t :: y.toList = (p.stmt s).action.blocks by rw [hx]; rfl] at hmem
  have hparent := hp.parent_of_owned hs hmem hb
  obtain rfl := (hp.home _ _ hs).2
  cases h with
  | along hn => rw [he] at hn; cases hn
  | join _ hs' hx' h =>
    cases hparent.symm.trans hs'
    exact hp.next_of_completes hs (List.ne_nil_of_mem hmem) h
  | turn _ hs' hx' =>
    cases hparent.symm.trans hs'
    cases hx.symm.trans hx'
  | leave _ hs' hx' =>
    cases hparent.symm.trans hs'
    cases hx.symm.trans hx'

/-- Behind a chain of a loop control goes to the next chain or behind the loop. -/
theorem following_or_next (hp : p.Regular) (hs : s ∈ (p.block a).stmts)
    (hl : (p.stmt s).action = .loop l) (hh : h ∈ l.blocks) (hb : p.OnChain h b)
    (he : (p.block b).next = none) (hc : p.Completes b c) :
    (c = l.following h ∧ (l.endsAt h = true → l.isSingle = false)) ∨
      l.endsAt h = true ∧ l.isFinite = true ∧ (p.block a).next = some c := by
  have hmem : h ∈ (p.stmt s).action.blocks := by rw [hl]; exact hh
  have hparent := hp.parent_of_owned hs hmem hb
  obtain rfl := (hp.home _ _ hs).2
  cases hc with
  | along hn => rw [he] at hn; cases hn
  | join _ hs' hl' =>
    cases hparent.symm.trans hs'
    cases hl.symm.trans hl'
  | turn _ hs' hl' hh' hb' hr =>
    cases hparent.symm.trans hs'
    cases hl.symm.trans hl'
    obtain rfl := head_unique hp.toStructured hs hmem hb hs (by rw [hl]; exact hh') hb'
    exact .inl ⟨rfl, hr⟩
  | leave _ hs' hl' hh' hb' hend hfin h =>
    cases hparent.symm.trans hs'
    cases hl.symm.trans hl'
    obtain rfl := head_unique hp.toStructured hs hmem hb hs (by rw [hl]; exact hh') hb'
    exact .inr ⟨hend, hfin, hp.next_of_completes hs (List.ne_nil_of_mem hmem) h⟩

/-! ## The last statement of a block -/

/-- What the statement at the end of a block owns is linked, and so is the block. -/
structure Settles (p : Program) (f : FuncId) (b : BlockId) (q r : Program) : Prop where
  adds : Adds f q r
  inner : ∀ x ∈ p.entered b, ∀ c, Relation.ReflTransGen p.Walks x c → Complete p r c
  own : Complete p r b

section Statements

variable (hp : p.Regular) (ha : IsOf p f a) (hq : Relinks p q)
include hp ha hq

/-- An arm is entered, and left to what continues the block of the branch. -/
theorem finishes_arm (hs : s ∈ (p.block a).stmts) (hx : (p.stmt s).action = .branch x t y k)
    (hh : h ∈ t :: y.toList) (hw : walk.Sound p f h) :
    Finishes p f h q (arm walk a h (p.block a).next q) ∧ Edges (arm walk a h (p.block a).next q) a h := by
  have hmem : h ∈ (p.stmt s).action.blocks := by rw [hx]; exact hh
  have hof : IsOf p f h := isOf_of_precedes hp ha (.inr ⟨s, hs, hmem⟩)
  have hlink : Adds f q (link a (some h) false q) :=
    adds_link false (hq.isOf.mpr ha) (by rintro _ ⟨⟩; exact hq.isOf.mpr hof)
  have hfollow : Finishes p f h (link a (some h) false q) (arm walk a h (p.block a).next q) := by
    refine finishes_follow hw (hq.trans hlink.toRelinks) fun r last hr hb he => ?_
    have hlast : IsOf r f last := hr.isOf.mpr (isOf_of_onChain hp hof hb)
    refine ⟨adds_link false hlast fun t ht => hr.isOf.mpr (isOf_next hp ha t ht), fun c hc => ?_⟩
    rw [next_of_arm hp hs hx hh hb he hc]
    exact edges_link false hlast.1
  exact ⟨⟨hlink.trans hfollow.adds, hfollow.complete⟩,
    hfollow.adds.edges (edges_link false (hq.isOf.mpr ha).1)⟩

theorem settles_branch (hl : p.lastAction? a = some (.branch x t y k))
    (hw : ∀ x ∈ p.entered a, walk.Sound p f x) : Settles p f a q (branch walk a t y k (p.block a).next q) := by
  obtain ⟨s, hs, -, hx⟩ := mem_of_lastAction? hl
  -- The first arm, if it can run.
  obtain ⟨r, hr⟩ : ∃ r, (if k = some false then q else arm walk a t (p.block a).next q) = r := ⟨_, rfl⟩
  have hthen : Adds f q r ∧ (k ≠ some false → Finishes p f t q r ∧ Edges r a t) := by
    subst hr
    by_cases hk : k = some false
    · rw [if_pos hk]
      exact ⟨.refl f q, fun h => absurd hk h⟩
    · rw [if_neg hk]
      have := finishes_arm hp ha hq hs hx List.mem_cons_self (hw t (by simp [entered, hl, hk]))
      exact ⟨this.1.adds, fun _ => this⟩
  -- The second arm, or what continues the block.
  obtain ⟨u, hu⟩ : ∃ u, branch walk a t y k (p.block a).next q = u := ⟨_, rfl⟩
  have helse : Adds f r u ∧ (k ≠ some true → (∀ c, y = some c → Finishes p f c r u ∧ Edges u a c) ∧
      (y = none → ∀ c, p.Completes a c → Edges u a c)) := by
    subst hu
    simp only [branch, hr]
    by_cases hk : k = some true
    · rw [if_pos hk]
      exact ⟨.refl f r, fun h => absurd hk h⟩
    · rw [if_neg hk]
      have hqr := hq.trans hthen.1.toRelinks
      cases y with
      | some c =>
        have := finishes_arm hp ha hqr hs hx (List.mem_cons_of_mem _ List.mem_cons_self)
          (hw c (by simp [entered, hl, hk]))
        refine ⟨this.1.adds, fun _ => ⟨?_, by simp⟩⟩
        rintro _ ⟨⟩
        exact this
      | none =>
        have hof := hqr.isOf.mpr ha
        refine ⟨adds_link false hof fun t ht => hqr.isOf.mpr (isOf_next hp ha t ht),
          fun _ => ⟨by simp, fun _ c hc => ?_⟩⟩
        rw [hp.next_of_completes hs (by simp [hx, Action.blocks]) hc]
        exact edges_link false hof.1
  rw [hu]
  refine ⟨hthen.1.trans helse.1, fun x hx c hc => ?_, fun c hc => ?_⟩
  · simp only [entered, hl, List.mem_append] at hx
    rcases hx with hx | hx
    · by_cases hk : k = some false
      · simp [hk] at hx
      · rw [if_neg hk, List.mem_singleton] at hx
        subst hx
        exact ((hthen.2 hk).1.complete c hc).of_adds helse.1
    · by_cases hk : k = some true
      · simp [hk] at hx
      · rw [if_neg hk, Option.mem_toList] at hx
        exact ((helse.2 hk).1 x hx).1.complete c hc
  · rcases completes_of_branch hl hc with ⟨rfl, hk⟩ | ⟨hk, hy | ⟨hy, hc⟩⟩
    · exact helse.1.edges (hthen.2 hk).2
    · exact ((helse.2 hk).1 c hy).2
    · exact (helse.2 hk).2 hy c hc

/-- Behind a loop that has no rounds control goes along the chain. -/
theorem settles_eliminated (hl : p.lastAction? a = some (.loop l)) (hr : l.rounds = .none) :
    Settles p f a q (link a (p.block a).next false q) := by
  obtain ⟨s, hs, -, hx⟩ := mem_of_lastAction? hl
  have hof := hq.isOf.mpr ha
  refine ⟨adds_link false hof fun t ht => hq.isOf.mpr (isOf_next hp ha t ht), fun x hx => ?_, fun c hc => ?_⟩
  · exact absurd hr ((mem_entered_of_loop hl).mp hx).1
  · rcases completes_of_loop hl hc with ⟨-, h⟩ | ⟨-, h⟩
    · exact absurd hr h
    · rw [hp.next_of_completes hs (by rw [hx]; exact List.ne_nil_of_mem l.first_mem_blocks) h]
      exact edges_link false hof.1

/-- A chain of a loop leads to the chain that follows it, and behind the loop if that is possible. -/
theorem finishes_round (hs : s ∈ (p.block a).stmts) (hl : (p.stmt s).action = .loop l)
    (hh : h ∈ l.blocks) (hw : walk.Sound p f h) {k : BlockId → Program → Program}
    (hb : ∀ r last, Relinks p r → IsOf r f last → Adds f r (k last r) ∧
      ((l.endsAt h = true → l.isSingle = false) → Edges (k last r) last (l.following h)) ∧
      (l.endsAt h = true → l.isFinite = true → ∀ c, (p.block a).next = some c → Edges (k last r) last c)) :
    Finishes p f h q (follow walk h k q) := by
  have hof : IsOf p f h := isOf_of_precedes hp ha (.inr ⟨s, hs, by rw [hl]; exact hh⟩)
  refine finishes_follow hw hq fun r last hr hlast he => ?_
  obtain ⟨hadds, hturn, hleave⟩ := hb r last hr (hr.isOf.mpr (isOf_of_onChain hp hof hlast))
  refine ⟨hadds, fun c hc => ?_⟩
  rcases following_or_next hp hs hl hh hlast he hc with ⟨rfl, h⟩ | ⟨hend, hfin, hn⟩
  · exact hturn h
  · exact hleave hend hfin c hn

/-- A link to a chain of a loop. -/
theorem adds_enter (hs : s ∈ (p.block a).stmts) (hl : (p.stmt s).action = .loop l) (hh : h ∈ l.blocks)
    (hlast : IsOf q f last) (weak : Bool) :
    Adds f q (link last (some h) weak q) ∧ Edges (link last (some h) weak q) last h := by
  have hof : IsOf p f h := isOf_of_precedes hp ha (.inr ⟨s, hs, by rw [hl]; exact hh⟩)
  exact ⟨adds_link weak hlast (by rintro _ ⟨⟩; exact hq.isOf.mpr hof), edges_link weak hlast.1⟩

/-- A link to what continues the block of a branch or a loop. -/
theorem adds_leave (hlast : IsOf q f last) : Adds f q (link last (p.block a).next false q) ∧
      ∀ c, (p.block a).next = some c → Edges (link last (p.block a).next false q) last c := by
  refine ⟨adds_link false hlast fun t ht => hq.isOf.mpr (isOf_next hp ha t ht), fun c hc => ?_⟩
  rw [hc]
  exact edges_link false hlast.1

/-- The way out of a loop that has an end. -/
theorem adds_leave_of_finite (hlast : IsOf q f last) (rounds : Rounds) :
    Adds f q (if rounds = .infinite then q else link last (p.block a).next false q) ∧
    (rounds ≠ .infinite → ∀ c, (p.block a).next = some c →
      Edges (if rounds = .infinite then q else link last (p.block a).next false q) last c) := by
  by_cases hi : rounds = .infinite
  · simp only [if_pos hi]
    exact ⟨.refl f q, fun h => absurd hi h⟩
  · simp only [if_neg hi]
    exact (adds_leave hp ha hq hlast).imp_right fun h _ => h

omit ha hq in
/-- A loop with rounds is linked if its chains are, and control can start it and, if it goes over keys or
values, pass it. -/
theorem settles_of_rounds (hl : p.lastAction? a = some (.loop l)) (hr : l.rounds ≠ .none)
    (hadds : Adds f q r) (hinner : ∀ x ∈ l.blocks, ∀ c, Relation.ReflTransGen p.Walks x c → Complete p r c)
    (hfirst : Edges r a l.first) (hpass : l.test? = none → ∀ c, (p.block a).next = some c → Edges r a c) :
    Settles p f a q r := by
  obtain ⟨s, hs, -, hx⟩ := mem_of_lastAction? hl
  refine ⟨hadds, fun x hx => hinner x ((mem_entered_of_loop hl).mp hx).2, fun c hc => ?_⟩
  rcases completes_of_loop hl hc with ⟨rfl, -⟩ | ⟨h | h, hc⟩
  · exact hfirst
  · exact absurd h hr
  · exact hpass h c (hp.next_of_completes hs (by rw [hx]; exact List.ne_nil_of_mem l.first_mem_blocks) hc)

omit ha hq in
/-- A loop with two chains is linked if both are, one after the other. -/
theorem settles_of_chains {u v : Program} {d : BlockId} (hl : p.lastAction? a = some (.loop l))
    (hr : l.rounds ≠ .none) (hstart : Adds f q r) (hedge : Edges r a l.first)
    (hround : Finishes p f l.first r u) (hback : Finishes p f d u v)
    (hblocks : ∀ x ∈ l.blocks, x = l.first ∨ x = d) (htest : l.test? ≠ none) : Settles p f a q v := by
  refine settles_of_rounds hp hl hr (hstart.trans (hround.adds.trans hback.adds)) (fun y hy c hc => ?_)
    ((hround.adds.trans hback.adds).edges hedge) fun h => absurd h htest
  rcases hblocks y hy with rfl | rfl
  · exact (hround.complete c hc).of_adds hback.adds
  · exact hback.complete c hc

/-- The body of a loop with a test leads to the test. -/
theorem finishes_body {test : BlockId} {behind : Bool} (hs : s ∈ (p.block a).stmts)
    (hx : (p.stmt s).action = .loop ⟨.tested behind test x, body, rounds⟩) (hw : walk.Sound p f body) (weak : Bool) :
    Finishes p f body q (follow walk body (fun last => link last (some test) weak) q) := by
  have hne : body ≠ test := by
    have := hp.distinct s
    rw [hx] at this
    cases behind <;> simpa [Action.blocks, Loop.blocks, eq_comm] using this
  refine finishes_round hp ha hq hs hx (by cases behind <;> simp [Loop.blocks]) hw fun r last hr hlast => ?_
  obtain ⟨hturn, hto⟩ :=
    adds_enter hp ha hr hs hx (h := test) (by cases behind <;> simp [Loop.blocks]) hlast weak
  refine ⟨hturn, fun _ => ?_, fun hend => ?_⟩
  · rwa [show Loop.following _ body = test by simp [Loop.following, hne]]
  · simp [Loop.endsAt, hne] at hend

/-- A loop that tests before its body. -/
theorem settles_tested {test : BlockId}
    (hl : p.lastAction? a = some (.loop ⟨.tested false test x, body, rounds⟩)) (hr : rounds ≠ .none)
    (htest : walk.Sound p f test) (hbody : walk.Sound p f body) :
    Settles p f a q (loop walk a ⟨.tested false test x, body, rounds⟩ (p.block a).next q) := by
  obtain ⟨s, hs, -, hx⟩ := mem_of_lastAction? hl
  rw [loop, if_neg hr]
  dsimp only
  obtain ⟨hstart, hedge⟩ := adds_enter hp ha hq hs hx (h := test) (by simp [Loop.blocks]) (hq.isOf.mpr ha) false
  have hq1 := hq.trans hstart.toRelinks
  have hround := finishes_round hp ha hq1 hs hx (by simp [Loop.blocks]) htest
    (k := fun last r => if rounds = .infinite then link last (some body) false r
      else link last (p.block a).next false (link last (some body) false r)) fun r last hr' hlast => by
      obtain ⟨hturn, hto⟩ := adds_enter hp ha hr' hs hx (h := body) (by simp [Loop.blocks]) hlast false
      obtain ⟨hleave, hout⟩ := adds_leave_of_finite hp ha (hr'.trans hturn.toRelinks)
        (hturn.isOf.mpr hlast) rounds
      refine ⟨hturn.trans hleave, fun _ => ?_, fun _ hfin => hout ?_⟩
      · rw [show Loop.following _ test = body by simp [Loop.following]]
        exact hleave.edges hto
      · simpa [Loop.isFinite, Loop.test?] using hfin
  exact settles_of_chains hp hl hr hstart hedge hround
    (finishes_body hp ha (hq1.trans hround.adds.toRelinks) hs hx hbody true) (by simp [Loop.blocks, Loop.first])
    (by simp [Loop.test?])

/-- A loop that tests behind its body. -/
theorem settles_testedBehind {test : BlockId}
    (hl : p.lastAction? a = some (.loop ⟨.tested true test x, body, rounds⟩)) (hr : rounds ≠ .none)
    (htest : walk.Sound p f test) (hbody : walk.Sound p f body) :
    Settles p f a q (loop walk a ⟨.tested true test x, body, rounds⟩ (p.block a).next q) := by
  obtain ⟨s, hs, -, hx⟩ := mem_of_lastAction? hl
  rw [loop, if_neg hr]
  dsimp only
  obtain ⟨hstart, hedge⟩ := adds_enter hp ha hq hs hx (h := body) (by simp [Loop.blocks]) (hq.isOf.mpr ha) false
  have hq1 := hq.trans hstart.toRelinks
  have hround := finishes_body hp ha hq1 hs hx hbody false
  refine settles_of_chains hp hl hr hstart hedge hround
    (finishes_round hp ha (hq1.trans hround.adds.toRelinks) hs hx (h := test) (by simp [Loop.blocks]) htest
      fun r last hr' hlast => ?_) (by simp [Loop.blocks, Loop.first])
    (by simp [Loop.test?])
  have hturn : Adds f r (if rounds = .once then r else link last (some body) true r) ∧
      (rounds ≠ .once → Edges (if rounds = .once then r else link last (some body) true r) last body) := by
    by_cases ho : rounds = .once
    · simp only [if_pos ho]
      exact ⟨.refl f r, fun h => absurd ho h⟩
    · simp only [if_neg ho]
      exact (adds_enter hp ha hr' hs hx (by simp [Loop.blocks]) hlast true).imp_right fun h _ => h
  obtain ⟨hleave, hout⟩ := adds_leave_of_finite hp ha (hr'.trans hturn.1.toRelinks)
    (hturn.1.isOf.mpr hlast) rounds
  refine ⟨hturn.1.trans hleave, fun hsingle => ?_, fun _ hfin => hout ?_⟩
  · rw [show Loop.following _ test = body by simp [Loop.following]]
    refine hleave.edges (hturn.2 ?_)
    simpa [Loop.isSingle, Loop.endsAt] using hsingle
  · simpa [Loop.isFinite, Loop.test?] using hfin

/-- A loop over keys or values. -/
theorem settles_iterated {values : Bool} {each : Place}
    (hl : p.lastAction? a = some (.loop ⟨.iterated values each x, body, rounds⟩)) (hr : rounds ≠ .none)
    (hbody : walk.Sound p f body) :
    Settles p f a q (loop walk a ⟨.iterated values each x, body, rounds⟩ (p.block a).next q) := by
  obtain ⟨s, hs, -, hx⟩ := mem_of_lastAction? hl
  rw [loop, if_neg hr]
  dsimp only
  obtain ⟨hstart, hedge⟩ := adds_enter hp ha hq hs hx (h := body) (by simp [Loop.blocks]) (hq.isOf.mpr ha) false
  have hq1 := hq.trans hstart.toRelinks
  obtain ⟨hskip, hpast⟩ := adds_leave hp ha hq1 (hq1.isOf.mpr ha)
  have hround := finishes_round hp ha (hq1.trans hskip.toRelinks) hs hx (by simp [Loop.blocks]) hbody
    (k := fun last r => link last (p.block a).next false (link last (some body) true r))
    fun r last hr' hlast => by
      obtain ⟨hturn, hto⟩ := adds_enter hp ha hr' hs hx (h := body) (by simp [Loop.blocks]) hlast true
      obtain ⟨hleave, hout⟩ := adds_leave hp ha (hr'.trans hturn.toRelinks) (hturn.isOf.mpr hlast)
      exact ⟨hturn.trans hleave, fun _ => hleave.edges hto, fun _ _ => hout⟩
  refine settles_of_rounds hp hl hr (hstart.trans (hskip.trans hround.adds)) (fun y hy c hc => ?_)
    ((hskip.trans hround.adds).edges hedge) fun _ c hc => hround.adds.edges (hpast c hc)
  rw [List.mem_singleton.mp hy] at hc
  exact hround.complete c hc

theorem settles_loop (hl : p.lastAction? a = some (.loop l))
    (hw : ∀ x ∈ p.entered a, walk.Sound p f x) : Settles p f a q (loop walk a l (p.block a).next q) := by
  by_cases hr : l.rounds = .none
  · rw [loop, if_pos hr]
    exact settles_eliminated hp ha hq hl hr
  · have hwalk : ∀ x ∈ l.blocks, walk.Sound p f x := fun x hx => hw x ((mem_entered_of_loop hl).mpr ⟨hr, hx⟩)
    obtain ⟨head, body, rounds⟩ := l
    cases head with
    | tested behind test x =>
      cases behind with
      | false => exact settles_tested hp ha hq hl hr (hwalk _ (by simp [Loop.blocks])) (hwalk _ (by simp [Loop.blocks]))
      | true =>
        exact settles_testedBehind hp ha hq hl hr (hwalk _ (by simp [Loop.blocks])) (hwalk _ (by simp [Loop.blocks]))
    | iterated values each x => exact settles_iterated hp ha hq hl hr (hwalk _ (by simp [Loop.blocks]))

end Statements

/-! ## Chains -/

/-- What is known when the last statement of a block is linked: the block is linked as well unless control
can leave the chain there. -/
structure Ends (p : Program) (f : FuncId) (b : BlockId) (q : Program) (r : Program × Bool) : Prop where
  adds : Adds f q r.1
  inner : ∀ x ∈ p.entered b, ∀ c, Relation.ReflTransGen p.Walks x c → Complete p r.1 c
  own : r.2 = false → Complete p r.1 b
  falls : r.2 = true → (p.block b).next = none ∧ ∀ x ∈ p.lastAction? b, x.endsBlock = false

theorem Settles.ends (h : Settles p f b q r) : Ends p f b q (r, false) := ⟨h.adds, h.inner, fun _ => h.own, nofun⟩

section Chains

variable (hp : p.Regular) (he : p.firstBlock? f = some e) (ha : Relation.ReflTransGen p.Walks e a)
include hp he ha

/-- The blocks of the walk from the entry belong to the function. -/
theorem isOf_of_entry : IsOf p f a :=
  isOf_of_walk hp ((mem_blocks_iff hp).mp (List.mem_of_mem_head? he)).2 ha

variable (hq : Relinks p q)
include hq

/-- Control goes from the end of a block to what continues it. -/
theorem ends_pass (hl : ∀ x ∈ p.lastAction? a, x.endsBlock = false) :
    Ends p f a q (link a (p.block a).next false q, (p.block a).next.isNone) := by
  have hof := isOf_of_entry hp he ha
  obtain ⟨hadds, hedges⟩ := adds_leave hp hof hq (hq.isOf.mpr hof)
  refine ⟨hadds, fun x hx => ?_, fun hn c hc => ?_, fun hn => ⟨Option.isNone_iff_eq_none.mp hn, hl⟩⟩
  · obtain ⟨y, hy, hb⟩ : ∃ y ∈ p.lastAction? a, y.endsBlock = true := by
      unfold entered at hx
      split at hx
      · next h => exact ⟨_, h, rfl⟩
      · next h => exact ⟨_, h, rfl⟩
      · cases hx
    rw [hl y hy] at hb
    cases hb
  · cases completes_of_transfers hl hc with
    | along h => exact hedges c h
    | join h | turn h | leave h => simp [h] at hn

/-- A jump out of a loop. -/
theorem settles_breakLoop {l : StmtId} (hl : p.lastAction? a = some (.breakLoop l)) :
    Settles p f a q (link a (behindLoop q l) false q) := by
  obtain ⟨s, hs, -, hx⟩ := mem_of_lastAction? hl
  have hinner := hp.jump a s l hs (by rw [hx]; rfl)
  rw [hp.parent a s hs] at hinner
  obtain ⟨hw, -, hm, -⟩ := hp.walk_loop he ha hinner
  obtain ⟨x, hloop⟩ := hinner.exists_loop
  rw [behindLoop, hq.stmt, hq.next]
  obtain ⟨hadds, hedges⟩ := adds_leave hp (isOf_of_entry hp he hw) hq (hq.isOf.mpr (isOf_of_entry hp he ha))
  refine ⟨hadds, by simp [entered, hl], fun c hc => hedges c (hp.next_of_completes hm ?_ ?_)⟩
  · rw [hloop]
    exact List.ne_nil_of_mem x.first_mem_blocks
  · exact completes_of_breakLoop hl hc

/-- A jump to the next round of a loop. -/
theorem settles_continueLoop {l : StmtId} (hl : p.lastAction? a = some (.continueLoop l)) :
    Settles p f a q (continueLoop a l q) := by
  obtain ⟨s, hs, -, hx⟩ := mem_of_lastAction? hl
  have hinner := hp.jump a s l hs (by rw [hx]; rfl)
  rw [hp.parent a s hs] at hinner
  obtain ⟨hw, -, hm, -⟩ := hp.walk_loop he ha hinner
  obtain ⟨x, hloop⟩ := hinner.exists_loop
  have hof := isOf_of_entry hp he hw
  have hlast := hq.isOf.mpr (isOf_of_entry hp he ha)
  suffices h : Adds f q (continueLoop a l q) ∧ Edges (continueLoop a l q) a x.resumed ∧
      (x.test? = none → ∀ c, (p.block (p.stmt l).block).next = some c → Edges (continueLoop a l q) a c) by
    refine ⟨h.1, by simp [entered, hl], fun c hc => ?_⟩
    rcases completes_of_continueLoop hl hloop hc with rfl | ⟨ht, hc⟩
    · exact h.2.1
    · refine h.2.2 ht c (hp.next_of_completes hm ?_ hc)
      rw [hloop]
      exact List.ne_nil_of_mem x.first_mem_blocks
  have hresume := adds_enter hp hof hq hm hloop x.resumed_mem_blocks hlast
  obtain ⟨head, body, rounds⟩ := x
  simp only [continueLoop, hq.stmt, hloop]
  cases head with
  | tested behind test y => exact ⟨(hresume _).1, (hresume _).2, fun h => by cases h⟩
  | iterated values each y =>
    obtain ⟨hturn, hto⟩ := hresume true
    obtain ⟨hleave, hout⟩ := adds_leave hp hof (hq.trans hturn.toRelinks) (hturn.isOf.mpr hlast)
    rw [behindLoop, hq.stmt, hq.next]
    exact ⟨hturn.trans hleave, hleave.edges hto, fun _ => hout⟩

/-- The statement at the end of a block is linked. -/
theorem ends_terminator (hw : ∀ x ∈ p.entered a, walk.Sound p f x) : Ends p f a q (terminator walk a q) := by
  have hof := isOf_of_entry hp he ha
  have hlast : ((q.block a).stmts.getLast?.map fun s => (q.stmt s).action) = p.lastAction? a := hq.lastAction? a
  rw [terminator, hlast, hq.next]
  cases hl : p.lastAction? a with
  | none =>
    have hpass : ∀ x ∈ p.lastAction? a, x.endsBlock = false := by simp [hl]
    exact ends_pass hp he ha hq hpass
  | some x =>
    cases x with
    | branch x t y k => exact (settles_branch hp hof hq hl hw).ends
    | loop l => exact (settles_loop hp hof hq hl hw).ends
    | breakLoop l => exact (settles_breakLoop hp he ha hq hl).ends
    | continueLoop l => exact (settles_continueLoop hp he ha hq hl).ends
    | returnValue v | throwValue v =>
      refine Settles.ends ⟨.refl f q, by simp [entered, hl], fun c hc => ?_⟩
      cases hc with
      | fall hb => cases hb _ hl
      | thenArm hb | elseArm hb | skip hb | start hb | pass hb | breakLoop hb | continueLoop hb | finish hb =>
        cases hl.symm.trans hb
    | define | copy | store | eval | setMember | declare =>
      exact ends_pass hp he ha hq (by rw [hl]; rintro _ ⟨⟩; rfl)

end Chains

/-- Chains are linked if the bound on the blocks to go through suffices: those still ahead have higher
numbers. -/
theorem sound_chain (hp : p.Regular) (he : p.firstBlock? f = some e) (fuel : Nat)
    (hh : Relation.ReflTransGen p.Walks e h) (hfuel : p.blocks.size ≤ fuel + h) :
    Walk.Sound (chain fuel) p f h := by
  induction fuel generalizing h with
  | zero =>
    rw [Nat.zero_add] at hfuel
    exact absurd (isOf_of_entry hp he hh).1 (Nat.not_lt.mpr hfuel)
  | succ fuel ih =>
    intro q hq
    have hahead : ∀ x, p.Walks h x → Walk.Sound (chain fuel) p f x := by
      intro x hx
      refine ih (hh.tail hx) (Nat.le_trans hfuel ?_)
      rw [Nat.add_assoc, Nat.add_comm 1]
      exact Nat.add_le_add_left (hp.toStructured.lt_of_precedes hx.precedes) fuel
    have hends := ends_terminator hp he hh hq fun x hx => hahead x (.inr hx)
    have hr := hq.trans hends.adds.toRelinks
    rw [chain]
    dsimp only
    rw [hr.next]
    cases hn : (p.block h).next with
    | some c =>
      have hc := hahead c (.inl hn) _ hr
      have hown : Complete p (terminator (chain fuel) h q).1 h := by
        refine hends.own (Bool.eq_false_iff.mpr fun hf => ?_)
        rw [(hends.falls hf).1] at hn
        cases hn
      refine ⟨hends.adds.trans hc.adds, hc.onChain.of_next hn, hc.last, hc.falls, fun b hb hlast => ?_⟩
      rcases hb.cases_head with rfl | ⟨x, hx | hx, hb⟩
      · exact hown.of_adds hc.adds
      · cases hn.symm.trans hx
        exact hc.complete b hb hlast
      · exact (hends.inner x hx b hb).of_adds hc.adds
    | none =>
      refine ⟨hends.adds, .head h, hn, fun hf => (hends.falls hf).2, fun b hb hlast => ?_⟩
      rcases hb.cases_head with rfl | ⟨x, hx | hx, hb⟩
      · exact hends.own (hlast rfl)
      · cases hn.symm.trans hx
      · exact hends.inner x hx b hb

/-- Once the chains from the entry are linked, every transfer of control that an execution can make is an
edge. -/
theorem edges_of_transfers (hp : p.Regular) (he : p.firstBlock? f = some e) (hq : Relinks p q)
    (hb : Relation.ReflTransGen p.Transfers e b) (hc : p.Transfers b c) :
    Edges (chain q.depth e q).program b c := by
  have hr := sound_chain hp he q.depth .refl (by rw [depth, hq.size]; omega) q hq
  have hw := hp.walk_of_transfers he hb
  by_cases hlast : b = (chain q.depth e q).last ∧ (chain q.depth e q).falls = true
  · -- Nothing follows the chain of the entry.
    obtain ⟨rfl, hf⟩ := hlast
    have hparent := (hp.toCoherent.parent_of_onChain hr.onChain).trans (hp.entry _ _ he).1
    cases completes_of_transfers (hr.falls hf) hc with
    | along hn => cases hr.last.symm.trans hn
    | join _ hs | turn _ hs | leave _ hs => cases hparent.symm.trans hs
  · exact hr.complete b hw (fun h => by simpa [h] using hlast) c hc

/-! ## Forgotten edges -/

/-- Forgets the edges of some blocks. -/
def clear (bs : List BlockId) (p : Program) : Program := bs.foldl (fun q b => q.modifyBlock b bare) p

theorem block_clear (bs : List BlockId) (b : BlockId) :
    (clear bs p).block b = if b ∈ bs ∧ b < p.blocks.size then bare (p.block b) else p.block b := by
  induction bs generalizing p with
  | nil => simp [clear]
  | cons c bs ih =>
    rw [show clear (c :: bs) p = clear bs (p.modifyBlock c bare) from rfl, ih, block_modifyBlock,
      blocks_size_modifyBlock]
    have hbare : ∀ x, bare (bare x) = bare x := fun _ => rfl
    by_cases hc : b = c
    · subst hc
      by_cases hb : b < p.blocks.size <;> simp [hb, hbare]
    · simp [hc]

theorem relinks_clear (bs : List BlockId) (p : Program) : Relinks p (clear bs p) := by
  refine List.foldlRecOn bs _ (.refl p) fun q hq b _ => hq.trans ⟨rfl, rfl, by simp, fun c => ?_⟩
  exact q.block_modifyBlock_of_eq bare b c bare fun _ => rfl

/-! ## The search -/

/-- Blocks that the search has not seen. -/
def unseen (bs : List BlockId) (seen : Std.TreeSet BlockId) : List BlockId := bs.filter fun b => !seen.contains b

theorem length_unseen_insert {seen : Std.TreeSet BlockId} (hb : b ∈ bs)
    (hs : seen.contains b = false) : (unseen bs (seen.insert b)).length < (unseen bs seen).length := by
  have h : unseen bs (seen.insert b) = (unseen bs seen).filter (· ≠ b) := by
    rw [unseen, unseen, List.filter_filter]
    refine List.filter_congr fun x _ => ?_
    by_cases hx : x = b
    · simp [hx]
    · have : compare b x ≠ .eq := fun h => hx (Std.LawfulEqOrd.eq_of_compare h).symm
      simp [Std.TreeSet.contains_insert, hx, this]
  rw [h]
  refine List.length_filter_lt_length_iff_exists.mpr ⟨b, ?_, by simp⟩
  simp [unseen, hb, hs]

/-- What a round of the search does with the edges of a block: their targets are seen, and those seen for
the first time wait. -/
theorem visit_edges {es : List Edge} {waiting waiting' : List BlockId}
    {seen seen' : Std.TreeSet BlockId} (hes : ∀ x ∈ es, x.block ∈ bs) (hw : ∀ b ∈ waiting, b ∈ bs)
    (h : es.foldl (fun (waiting, seen) x =>
      if seen.contains x.block then (waiting, seen) else (x.block :: waiting, seen.insert x.block))
      (waiting, seen) = (waiting', seen')) : (∀ b ∈ waiting', b ∈ bs) ∧ (∀ b ∈ waiting, b ∈ waiting') ∧
    (∀ x ∈ es, x.block ∈ seen') ∧ (∀ b ∈ seen, b ∈ seen') ∧ (∀ b ∈ seen', b ∈ seen ∨ b ∈ waiting') ∧
    (unseen bs seen').length + waiting'.length ≤ (unseen bs seen).length + waiting.length := by
  induction es generalizing waiting seen with
  | nil =>
    cases h
    exact ⟨hw, fun _ h => h, nofun, fun _ h => h, fun _ h => .inl h, Nat.le_refl _⟩
  | cons x es ih =>
    rw [List.forall_mem_cons] at hes
    rw [List.foldl_cons] at h
    dsimp only at h
    by_cases hx : seen.contains x.block = true
    · rw [if_pos hx] at h
      obtain ⟨h1, h2, h3, h4, h5, h6⟩ := ih hes.2 hw h
      exact ⟨h1, h2, List.forall_mem_cons.mpr ⟨h4 _ hx, h3⟩, h4, h5, h6⟩
    · rw [if_neg hx] at h
      obtain ⟨h1, h2, h3, h4, h5, h6⟩ := ih hes.2 (List.forall_mem_cons.mpr ⟨hes.1, hw⟩) h
      have hlt := length_unseen_insert hes.1 (Bool.eq_false_iff.mpr hx)
      refine ⟨h1, fun b hb => h2 b (List.mem_cons_of_mem _ hb), ?_, fun b hb => ?_, fun b hb => ?_, ?_⟩
      · exact List.forall_mem_cons.mpr ⟨h4 _ Std.TreeSet.mem_insert_self, h3⟩
      · exact h4 b (Std.TreeSet.mem_insert.mpr (.inr hb))
      · rcases h5 b hb with hb | hb
        · rcases Std.TreeSet.mem_insert.mp hb with hb | hb
          · rw [← Std.LawfulEqOrd.eq_of_compare hb]
            exact .inr (h2 _ List.mem_cons_self)
          · exact .inl hb
        · exact .inr hb
      · rw [List.length_cons] at h6
        omega

/-- The search ends with all that it has seen and with all to which edges lead from there: each round
takes a waiting block, and a block waits once. -/
theorem reach_closed (hbs : ∀ b ∈ bs, ∀ x ∈ (p.block b).succs, x.block ∈ bs) (fuel : Nat)
    (waiting : List BlockId) (seen : Std.TreeSet BlockId) (hw : ∀ b ∈ waiting, b ∈ bs)
    (hs : ∀ b ∈ seen, b ∈ waiting ∨ ∀ c, Edges p b c → c ∈ seen)
    (hfuel : (unseen bs seen).length + waiting.length ≤ fuel) : (∀ b ∈ seen, b ∈ reach p fuel waiting seen) ∧
      ∀ b ∈ reach p fuel waiting seen, ∀ c, Edges p b c → c ∈ reach p fuel waiting seen := by
  induction fuel generalizing waiting seen with
  | zero =>
    obtain rfl : waiting = [] := List.length_eq_zero_iff.mp (by omega)
    exact ⟨fun _ h => h, fun b hb => (hs b hb).resolve_left List.not_mem_nil⟩
  | succ fuel ih =>
    cases waiting with
    | nil => exact ⟨fun _ h => h, fun b hb => (hs b hb).resolve_left List.not_mem_nil⟩
    | cons a waiting =>
      rw [List.forall_mem_cons] at hw
      unfold reach
      dsimp only
      obtain ⟨⟨waiting', seen'⟩, h⟩ : ∃ x, (p.block a).succs.foldl (fun (waiting, seen) x =>
        if seen.contains x.block then (waiting, seen) else (x.block :: waiting, seen.insert x.block))
        (waiting, seen) = x := ⟨_, rfl⟩
      rw [h]
      obtain ⟨h1, h2, h3, h4, h5, h6⟩ := visit_edges (hbs a hw.1) hw.2 h
      rw [List.length_cons] at hfuel
      have hclosed := ih waiting' seen' h1 (fun b hb => ?_) (by omega)
      · exact ⟨fun b hb => hclosed.1 b (h4 b hb), hclosed.2⟩
      · rcases h5 b hb with hb | hb
        · rcases hs b hb with hb | hb
          · rcases List.mem_cons.mp hb with rfl | hb
            · exact .inr fun c ⟨w, hc⟩ => h3 _ hc
            · exact .inl (h2 b hb)
          · exact .inr fun c hc => h4 c (hb c hc)
        · exact .inl hb

/-! ## Dead blocks -/

theorem markDead_none (fuel : Nat) (p : Program) : markDead fuel none p = p := by cases fuel <;> rfl

/-- Marking what a block starts as dead spares the blocks that it does not precede. -/
theorem dead_markDead (fuel : Nat) (hq : p.Marks q) (hb : ¬ Relation.ReflTransGen p.Precedes a b) :
    ((markDead fuel (some a) q).block b).dead = (q.block b).dead := by
  induction fuel generalizing a q with
  | zero => rfl
  | succ fuel ih =>
    have hne : b ≠ a := by
      rintro rfl
      exact hb .refl
    -- Blocks that `a` precedes do not precede `b` either.
    have hstep : ∀ {r c}, p.Marks r → p.Precedes a c →
        ((markDead fuel (some c) r).block b).dead = (r.block b).dead :=
      fun hr hc => ih hr fun h => hb (.head hc h)
    unfold markDead
    dsimp only
    obtain ⟨r, hr⟩ : ∃ r, q.modifyBlock a (fun x => { x with dead := true }) = r := ⟨_, rfl⟩
    have hmarks : p.Marks r := hr ▸ Marks.chains.trans hq (Marks.setDead q a)
    have hdead : (r.block b).dead = (q.block b).dead := by
      rw [← hr, block_modifyBlock_of_ne _ _ _ _ hne]
    rw [hr]
    obtain ⟨t, ht⟩ : ∃ t, (r.block a).stmts.foldl (fun r s =>
      ((r.modifyStmt s fun x => { x with live := false }).stmt s).action.blocks.foldl
        (fun r c => markDead fuel (some c) r) (r.modifyStmt s fun x => { x with live := false })) r = t :=
      ⟨_, rfl⟩
    have hinner : p.Marks t ∧ (t.block b).dead = (q.block b).dead := by
      rw [← ht]
      refine List.foldlRecOn (motive := fun t => p.Marks t ∧ (t.block b).dead = (q.block b).dead) _ _
        ⟨hmarks, hdead⟩ fun t ht s hs => ?_
      rw [hmarks.stmts] at hs
      have hdrop : p.Marks (t.modifyStmt s fun x => { x with live := false }) :=
        Marks.chains.trans ht.1 (Marks.setDropped t s)
      refine List.foldlRecOn (motive := fun t => p.Marks t ∧ (t.block b).dead = (q.block b).dead) _ _
        ⟨hdrop, ht.2⟩ fun u hu c hc => ?_
      rw [hdrop.reshapes.blocks] at hc
      exact ⟨Marks.chains.trans hu.1 (Marks.chains.markDead Marks.setDead Marks.setDropped _ _ _),
        (hstep hu.1 (.inr ⟨s, hs, hc⟩)).trans hu.2⟩
    rw [ht, hinner.1.reshapes.next]
    cases hn : (p.block a).next with
    | none =>
      rw [markDead_none]
      exact hinner.2
    | some c => exact (hstep hinner.1 (.inl hn)).trans hinner.2

/-- Marking blocks as dead keeps the edges. -/
theorem edges_kill (p : Program) (a b : BlockId) :
    ((p.kill a).block b).succs = (p.block b).succs ∧ ((p.kill a).block b).preds = (p.block b).preds := by
  have hR : Chains fun p q : Program =>
      (q.block b).succs = (p.block b).succs ∧ (q.block b).preds = (p.block b).preds :=
    ⟨fun _ => ⟨rfl, rfl⟩, fun h k => ⟨k.1.trans h.1, k.2.trans h.2⟩⟩
  refine hR.markDead (fun p c => ⟨?_, ?_⟩) (fun _ _ => ⟨rfl, rfl⟩) _ _ _
  · exact p.block_modifyBlock_of_eq Block.succs c b _ fun _ => rfl
  · exact p.block_modifyBlock_of_eq Block.preds c b _ fun _ => rfl

/-! ## The graph of a function -/

/-- No edge leaves or enters some blocks, and the edges back are the edges turned around, with the same
weakness and as often. -/
def Transposed (bs : List BlockId) (p : Program) : Prop :=
  ∀ b ∈ bs, (∀ x ∈ (p.block b).succs, x.block ∈ bs) ∧ (∀ x ∈ (p.block b).preds, x.block ∈ bs) ∧
    ∀ c ∈ bs, ∀ weak, (p.block b).succs.count ⟨c, weak⟩ = (p.block c).preds.count ⟨b, weak⟩

/-- The program with the chains of a function linked anew. -/
def linked (p : Program) (f : FuncId) (e : BlockId) : Program :=
  (chain (clear (p.function f).blocks p).depth e (clear (p.function f).blocks p)).program

/-- What the search from the entry finds. -/
def found (p : Program) (e : BlockId) : Std.TreeSet BlockId :=
  reach p p.depth [e] (Std.TreeSet.empty.insert e)

theorem function_eq (he : p.firstBlock? f = some e) :
    function p f = (p.function f).blocks.foldl (fun r b =>
      if (found (linked p f e) e).contains b || (r.block b).dead then r else r.kill b) (linked p f e) := by
  unfold function
  dsimp only
  rw [show (p.function f).blocks.head? = some e from he]
  rfl

section Graph

variable (hp : p.Regular) (he : p.firstBlock? f = some e)
include hp he

theorem adds_linked : Adds f (clear (p.function f).blocks p) (linked p f e) :=
  (sound_chain hp he _ .refl (by rw [depth, (relinks_clear _ p).size]; omega) _ (relinks_clear _ p)).adds

theorem relinks_linked : Relinks p (linked p f e) := (relinks_clear _ p).trans (adds_linked hp he).toRelinks

theorem transposed_linked : Transposed (p.function f).blocks (linked p f e) := by
  have hadds := adds_linked hp he
  have hclear := relinks_clear (p.function f).blocks p
  have hf : f < p.functions.size := ((mem_blocks_iff hp).mp (List.mem_of_mem_head? he)).1
  have hlt : ∀ b ∈ (p.function f).blocks, b < p.blocks.size := fun b hb => ((mem_blocks_iff hp).mp hb).2.1
  have hbare : ∀ b ∈ (p.function f).blocks, (clear (p.function f).blocks p).block b = bare (p.block b) := by
    intro b hb
    rw [block_clear, if_pos ⟨hb, hlt b hb⟩]
  have hmem : ∀ x, IsOf (clear (p.function f).blocks p) f x → x ∈ (p.function f).blocks := fun x hx =>
    (mem_blocks_iff hp).mpr ⟨hf, hclear.isOf.mp hx⟩
  refine fun b hb => ⟨fun x hx => ?_, fun x hx => ?_, fun c hc weak => ?_⟩
  · refine (hadds.succs b x hx).elim (fun h => ?_) (hmem x.block)
    rw [hbare b hb] at h
    cases h
  · refine (hadds.preds b x hx).elim (fun h => ?_) (hmem x.block)
    rw [hbare b hb] at h
    cases h
  · have h := hadds.count b c weak (hclear.size ▸ hlt b hb) (hclear.size ▸ hlt c hc)
    rw [hbare b hb, hbare c hc] at h
    simpa [bare] using h

/-- An execution goes along edges. -/
theorem edges_of_execution (hb : Relation.ReflTransGen p.Transfers e b) :
    Relation.ReflTransGen (Edges (linked p f e)) e b := by
  induction hb with
  | refl => exact .refl
  | tail hb hc ih => exact ih.tail (edges_of_transfers hp he (relinks_clear _ p) hb hc)

/-- The search finds what an execution enters. -/
theorem mem_found (hb : Relation.ReflTransGen p.Transfers e b) : b ∈ found (linked p f e) e := by
  have hbs : ∀ b ∈ (p.function f).blocks, ∀ x ∈ ((linked p f e).block b).succs, x.block ∈ (p.function f).blocks :=
    fun b hb => (transposed_linked hp he b hb).1
  have hentry : e ∈ (p.function f).blocks := List.mem_of_mem_head? he
  have hlength : (unseen (p.function f).blocks (Std.TreeSet.empty.insert e)).length ≤ p.blocks.size := by
    refine Nat.le_trans (List.length_filter_le _ _) ?_
    rw [hp.listed f ((mem_blocks_iff hp).mp hentry).1]
    exact Nat.le_trans (List.length_filter_le _ _) (by simp)
  have hclosed := reach_closed hbs (linked p f e).depth [e] (Std.TreeSet.empty.insert e)
    (by simpa using hentry) (fun b hb => ?_) ?_
  · have hpath := edges_of_execution hp he hb
    clear hb
    induction hpath with
    | refl => exact hclosed.1 e Std.TreeSet.mem_insert_self
    | tail _ h ih => exact hclosed.2 _ ih _ h
  · rcases Std.TreeSet.mem_insert.mp hb with hb | hb
    · exact .inl (by simp [Std.LawfulEqOrd.eq_of_compare hb])
    · exact absurd hb (by simp)
  · rw [depth, (relinks_linked hp he).size, List.length_singleton]
    omega

omit hp in
/-- Marking what was not found keeps the edges. -/
theorem edges_function (b : BlockId) :
    ((function p f).block b).succs = ((linked p f e).block b).succs ∧
      ((function p f).block b).preds = ((linked p f e).block b).preds := by
  rw [function_eq he]
  refine List.foldlRecOn (motive := fun r : Program => (r.block b).succs = ((linked p f e).block b).succs ∧
    (r.block b).preds = ((linked p f e).block b).preds) _ _ ⟨rfl, rfl⟩ fun r hr x _ => ?_
  split
  · exact hr
  · exact ⟨(edges_kill r x b).1.trans hr.1, (edges_kill r x b).2.trans hr.2⟩

/-- What an execution enters is not marked as dead: what precedes it is entered before, so it was found. -/
theorem dead_function (hb : Relation.ReflTransGen p.Transfers e b) :
    ((function p f).block b).dead = (p.block b).dead := by
  have hlinked := relinks_linked hp he
  rw [function_eq he, ← hlinked.dead]
  refine (List.foldlRecOn (motive := fun r : Program => (linked p f e).Marks r ∧
    (r.block b).dead = ((linked p f e).block b).dead) _ _ ⟨Marks.chains.refl _, rfl⟩ fun r hr x _ => ?_).2
  split
  · exact hr
  · next hx =>
    refine ⟨Marks.chains.trans hr.1 (Marks.kill r x), (dead_markDead _ hr.1 fun h => hx ?_).trans hr.2⟩
    rw [hlinked.precedes] at h
    have hfound : (found (linked p f e) e).contains x = true := mem_found hp he (hp.enters_of_precedes he hb h)
    rw [hfound, Bool.true_or]

end Graph

/-- Every block that an execution of a function enters is reached from the entry along edges and is not
marked as dead, every transfer of control of the execution is an edge, and the edges back are the edges
turned around. -/
theorem function_sound (hp : p.Regular) (f : FuncId) :
    (∀ b, p.Enters f b →
      (∃ e, p.firstBlock? f = some e ∧ Relation.ReflTransGen (Edges (function p f)) e b) ∧
      ((function p f).block b).dead = (p.block b).dead ∧
      ∀ c, p.Transfers b c → Edges (function p f) b c) ∧
    Transposed (p.function f).blocks (function p f) := by
  cases he : p.firstBlock? f with
  | none =>
    refine ⟨?_, ?_⟩
    · rintro b ⟨e, he', -⟩
      cases he.symm.trans he'
    · rw [List.head?_eq_none_iff.mp he]
      nofun
  | some e =>
    have hedges : Edges (function p f) = Edges (linked p f e) := by
      funext b c
      rw [Edges, Edges, (edges_function he b).1]
    refine ⟨?_, fun b hb => ?_⟩
    · rintro b ⟨e', he', hb⟩
      cases he.symm.trans he'
      rw [hedges]
      exact ⟨⟨e, rfl, edges_of_execution hp he hb⟩, dead_function hp he hb,
        fun c hc => edges_of_transfers hp he (relinks_clear _ p) hb hc⟩
    · obtain ⟨hsuccs, hpreds, hcount⟩ := transposed_linked hp he b hb
      rw [(edges_function he b).1, (edges_function he b).2]
      refine ⟨hsuccs, hpreds, fun c hc weak => ?_⟩
      rw [(edges_function he c).2]
      exact hcount c hc weak

theorem function_sound_nestedLoops :
    ∃ x p, Script.parse "" nestedLoops = .ok x ∧ x.lower = .ok p ∧ p.Regular ∧
      (∀ b, p.Enters 1 b →
        (∃ e, p.firstBlock? 1 = some e ∧ Relation.ReflTransGen (Edges (function p 1)) e b) ∧
        ((function p 1).block b).dead = (p.block b).dead ∧
        ∀ c, p.Transfers b c → Edges (function p 1) b c) ∧
      Transposed (p.function 1).blocks (function p 1) := by
  obtain ⟨x, p, hx, hp, hplain⟩ := Script.exists_lower nestedLoops
    (fun x _ => (Walk.script Walk.everywhere x).all (startsPlain ·.node)) (by decide +kernel)
  have hregular : p.Regular := Pass.applyAll_regular hp (List.all_eq_true.mp hplain) false []
  exact ⟨x, p, hx, hp, hregular, function_sound hregular 1⟩

end ScriptOptimizer.FlowGraph
