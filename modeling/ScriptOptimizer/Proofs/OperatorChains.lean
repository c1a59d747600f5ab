import Mathlib.Data.List.Basic
import ScriptOptimizer.Grammar.Precedence

/-!
# The grouping of operator chains

A grouping puts the operands of a chain under its operators without changing their order. Of all
groupings of a chain exactly one respects the levels of the operators and the side to which they group,
and precedence climbing builds it.
-/

namespace ScriptOptimizer

/-- A way to group the operands of a chain. An operand stays whole, whatever expression it is. -/
inductive Grouping where
  | operand (e : Expr)
  | node (left : Grouping) (pos : Position) (op : BinaryOp) (right : Grouping)

namespace Grouping

/-- The operand at the left end. -/
def first : Grouping → Expr
  | operand e => e
  | node l _ _ _ => l.first

/-- The operators and the operands behind them, from left to right. -/
def links : Grouping → List Link
  | operand _ => []
  | node l pos op r => l.links ++ ⟨pos, op, r.first⟩ :: r.links

/-- The expression that a grouping stands for. -/
def expr : Grouping → Expr
  | operand e => e
  | node l pos op r => Link.combine ⟨pos, op, r.first⟩ l.expr r.expr

/-- The level of the operator at the root, if there is one. -/
def level? : Grouping → Option Nat
  | operand _ => none
  | node _ _ op _ => some op.level

/-- An operator binds no tighter than one at the root of its left operand, and less tight than one at
the root of its right operand; for `**` the sides are exchanged. -/
def Respects : Grouping → Prop
  | operand _ => True
  | node l _ op r => l.Respects ∧ r.Respects ∧
    (∀ n ∈ l.level?, op.level ≤ n ∧ (op = .power → op.level < n)) ∧
    (∀ n ∈ r.level?, op.level ≤ n ∧ (op ≠ .power → op.level < n))

end Grouping

namespace Link

/-! ## Levels -/

/-- An operator of level `n` takes the operand in front of it away from one of level `m`. -/
def Takes (m n : Nat) : Prop := m < n ∨ m = n ∧ m = BinaryOp.power.level

/-- No other operator has the level of `**`. -/
theorem level_eq_power {op : BinaryOp} : op.level = BinaryOp.power.level ↔ op = .power := by
  cases op <;> simp [BinaryOp.level, Rank.level, Rank.ctorIdx]

theorem binds_iff {link : Link} {level : Nat} : link.binds level = true ↔ Takes level link.op.level := by
  simp only [binds, Takes, Bool.or_eq_true, Bool.and_eq_true, decide_eq_true_eq, beq_iff_eq,
    ← level_eq_power]
  omega

theorem Takes.mono {m n k : Nat} (h : Takes m n) (hk : n ≤ k) : Takes m k := by
  unfold Takes at *
  omega

theorem Takes.of_not {m n k : Nat} (h : ¬ Takes n m) (hk : n ≤ k) : ¬ Takes k m := by
  unfold Takes at *
  omega

end Link

namespace Grouping

open Link

variable {g h l r : Grouping} {pos : Position} {op : BinaryOp} {n : Nat}

/-- The two conditions at an operator in terms of what takes operands away. -/
theorem respects_node : (node l pos op r).Respects ↔ l.Respects ∧ r.Respects ∧
    (∀ n ∈ l.level?, ¬ Takes n op.level) ∧ (∀ n ∈ r.level?, Takes op.level n) := by
  have hleft : ∀ n, (op.level ≤ n ∧ (op = .power → op.level < n)) ↔ ¬ Takes n op.level := by
    intro n
    rw [← level_eq_power]
    unfold Takes
    omega
  have hright : ∀ n, (op.level ≤ n ∧ (op ≠ .power → op.level < n)) ↔ Takes op.level n := by
    intro n
    rw [ne_eq, ← level_eq_power]
    unfold Takes
    omega
  simp only [Respects, hleft, hright]

/-- The operator at the root is one of the loosest. -/
theorem Respects.level_le (hg : g.Respects) (hn : n ∈ g.level?) {x : Link} (hx : x ∈ g.links) :
    n ≤ x.op.level := by
  induction g generalizing n with
  | operand => cases hx
  | node l pos op r ihl ihr =>
    obtain ⟨hl, hr, hleft, hright⟩ := respects_node.mp hg
    obtain rfl : op.level = n := by simpa [level?] using hn
    rcases List.mem_append.mp hx with hx | hx
    · cases l with
      | operand => cases hx
      | node _ _ op' _ =>
        have hroot := hleft op'.level rfl
        have := ihl hl rfl hx
        unfold Takes at hroot
        omega
    · rcases List.mem_cons.mp hx with rfl | hx
      · exact Nat.le_refl _
      · cases r with
        | operand => cases hx
        | node _ _ op' _ =>
          have hroot := hright op'.level rfl
          have := ihr hr rfl hx
          unfold Takes at hroot
          omega

/-! ## At most one grouping -/

/-- The root of a grouping splits the chain: it takes no operand from the operators in front of it, and
those behind it take theirs. -/
theorem Respects.splits (hg : (node l pos op r).Respects) :
    (∀ x ∈ l.links, ¬ Takes x.op.level op.level) ∧ (∀ x ∈ r.links, Takes op.level x.op.level) := by
  obtain ⟨hl, hr, hleft, hright⟩ := respects_node.mp hg
  constructor
  · intro x hx
    cases l with
    | operand => cases hx
    | node _ _ op' _ => exact Takes.of_not (hleft op'.level rfl) (hl.level_le rfl hx)
  · intro x hx
    cases r with
    | operand => cases hx
    | node _ _ op' _ => exact (hright op'.level rfl).mono (hr.level_le rfl hx)

/-- A chain has one such split. -/
private theorem split_unique {xs xs' ys ys' : List Link} {x x' : Link}
    (h : xs ++ x :: ys = xs' ++ x' :: ys') (hxs' : ∀ y ∈ xs', ¬ Takes y.op.level x'.op.level)
    (hys : ∀ y ∈ ys, Takes x.op.level y.op.level) (hxs : ∀ y ∈ xs, ¬ Takes y.op.level x.op.level)
    (hys' : ∀ y ∈ ys', Takes x'.op.level y.op.level) : xs = xs' ∧ x = x' ∧ ys = ys' := by
  rcases List.append_eq_append_iff.mp h with ⟨as, rfl, has⟩ | ⟨as, rfl, has⟩
  · cases as with
    | nil => simpa using has
    | cons a as =>
      -- The one root would stand in front of the other and behind it.
      obtain ⟨rfl, rfl⟩ := List.cons.inj has
      exact absurd (hys x' (by simp)) (hxs' x (by simp))
  · cases as with
    | nil => simpa [eq_comm] using has
    | cons a as =>
      obtain ⟨rfl, rfl⟩ := List.cons.inj has
      exact absurd (hys' x (by simp)) (hxs x' (by simp))

theorem Respects.unique (hg : g.Respects) (hh : h.Respects) (hfirst : g.first = h.first)
    (hlinks : g.links = h.links) : g = h := by
  induction g generalizing h with
  | operand e =>
    cases h with
    | operand e' => exact congrArg operand hfirst
    | node => simp [links] at hlinks
  | node l pos op r ihl ihr =>
    cases h with
    | operand => simp [links] at hlinks
    | node l' pos' op' r' =>
      obtain ⟨hxs, hx, hys⟩ := split_unique hlinks hh.splits.1 hg.splits.2 hg.splits.1 hh.splits.2
      obtain ⟨hpos, hop, hright⟩ := Link.mk.inj hx
      obtain ⟨hl, hr, -⟩ := respects_node.mp hg
      obtain ⟨hl', hr', -⟩ := respects_node.mp hh
      rw [ihl hl hl' hfirst hxs, ihr hr hr' hright hys, hpos, hop]

end Grouping

namespace Link

open Grouping

/-! ## What climbing builds -/

/-- What extending a grouping by the operators of a chain gives: a grouping that respects the levels, and
operators that are left over, of which the next one takes nothing from the root. -/
structure Extends (g : Grouping) (links : List Link) (g' : Grouping) (rest : List Link) : Prop where
  first : g'.first = g.first
  links : g'.links ++ rest = g.links ++ links
  longer : g.links.length ≤ g'.links.length
  respects : g'.Respects
  ready : ∀ n ∈ g'.level?, ∀ x ∈ rest.head?, ¬ Takes n x.op.level

/-- What `climb` gives: an operator that is left over is below level `min`, those it took are not. -/
structure Climbs (min : Nat) (g : Grouping) (links : List Link) (g' : Grouping) (rest : List Link) : Prop
    extends Extends g links g' rest where
  stops : ∀ x ∈ rest.head?, x.op.level < min
  root : g' = g ∨ g.links.length < g'.links.length ∧ ∃ n ∈ g'.level?, min ≤ n

/-- What `raise` gives: an operator that is left over does not take the operand away, those it took do. -/
structure Raises (level : Nat) (r : Grouping) (links : List Link) (r' : Grouping) (rest : List Link) : Prop
    extends Extends r links r' rest where
  stops : ∀ x ∈ rest.head?, ¬ Takes level x.op.level
  root : ∀ n ∈ r'.level?, Takes level n

variable {g g' r r' : Grouping} {links rest rest' : List Link} {fuel min level : Nat}

theorem Extends.refl (hg : g.Respects) (hready : ∀ n ∈ g.level?, ∀ x ∈ links.head?, ¬ Takes n x.op.level) :
    Extends g links g links := ⟨rfl, rfl, Nat.le_refl _, hg, hready⟩

theorem Extends.trans (h : Extends g links r rest) (h' : Extends r rest g' rest') :
    Extends g links g' rest' where
  first := h'.first.trans h.first
  links := h'.links.trans h.links
  longer := Nat.le_trans h.longer h'.longer
  respects := h'.respects
  ready := h'.ready

theorem Extends.length_eq (h : Extends g links g' rest) :
    g'.links.length + rest.length = g.links.length + links.length := by
  simpa using congrArg List.length h.links

/-- An operator whose right operand was raised becomes the root. -/
theorem Extends.node {link : Link} (hg : g.Respects) (hleft : ∀ n ∈ g.level?, ¬ Takes n link.op.level)
    (hr : Raises link.op.level (.operand link.right) links r rest) :
    Extends g (link :: links) (.node g link.pos link.op r) rest where
  first := rfl
  links := by
    have hfirst : r.first = link.right := hr.first
    have hlinks : r.links ++ rest = links := hr.links
    rw [Grouping.links, hfirst, List.append_assoc, List.cons_append, hlinks]
  longer := by simp [Grouping.links]
  respects := respects_node.mpr ⟨hg, hr.respects, hleft, hr.root⟩
  ready := by simpa [level?] using hr.stops

/-- A depth that climbing over a chain needs at most. -/
def ClimbSpec (fuel : Nat) : Prop := ∀ (min : Nat) (g : Grouping) (links : List Link),
  2 * links.length ≤ fuel → g.Respects → (∀ n ∈ g.level?, ∀ x ∈ links.head?, ¬ Takes n x.op.level) →
  ∃ g' rest, climb fuel g.expr min links = (g'.expr, rest) ∧ Climbs min g links g' rest

/-- A depth that raising an operand over a chain needs at most. -/
def RaiseSpec (fuel : Nat) : Prop := ∀ (level : Nat) (r : Grouping) (links : List Link),
  2 * links.length < fuel ∨ links = [] → r.Respects →
  (∀ n ∈ r.level?, ∀ x ∈ links.head?, ¬ Takes n x.op.level) → (∀ n ∈ r.level?, Takes level n) →
  ∃ r' rest, raise fuel level r.expr links = (r'.expr, rest) ∧ Raises level r links r' rest

theorem climbSpec_succ (hclimb : ClimbSpec fuel) (hraise : RaiseSpec fuel) : ClimbSpec (fuel + 1) := by
  intro min g links hfuel hg hready
  cases links with
  | nil => exact ⟨g, [], rfl, .refl hg hready, nofun, .inl rfl⟩
  | cons link links =>
    rw [List.length_cons] at hfuel
    by_cases hlevel : link.op.level < min
    · exact ⟨g, link :: links, by rw [climb, if_pos hlevel], .refl hg hready, by simpa using hlevel, .inl rfl⟩
    · have hleft : ∀ n ∈ g.level?, ¬ Takes n link.op.level := fun n hn => hready n hn link rfl
      obtain ⟨r, rest, hreq, hr⟩ := hraise link.op.level (.operand link.right) links (by omega) trivial
        nofun nofun
      have hnode := Extends.node hg hleft hr
      have hlen := hr.length_eq
      have hlonger := hr.longer
      obtain ⟨g', rest', hceq, hc⟩ := hclimb min _ rest (by omega) hnode.respects hnode.ready
      refine ⟨g', rest', ?_, hnode.trans hc.toExtends, hc.stops, ?_⟩
      · have hreq : raise fuel link.op.level link.right links = (r.expr, rest) := hreq
        rw [climb, if_neg hlevel, hreq]
        exact hceq
      · have hgrown : g.links.length < (node g link.pos link.op r).links.length := by simp [Grouping.links]
        rcases hc.root with rfl | ⟨hgrown', hroot⟩
        · exact .inr ⟨hgrown, link.op.level, rfl, Nat.le_of_not_lt hlevel⟩
        · exact .inr ⟨Nat.lt_trans hgrown hgrown', hroot⟩

theorem raiseSpec_succ (hclimb : ClimbSpec fuel) (hraise : RaiseSpec fuel) : RaiseSpec (fuel + 1) := by
  intro level r links hfuel hr hready hroot
  cases links with
  | nil => exact ⟨r, [], rfl, .refl hr hready, nofun, hroot⟩
  | cons link links =>
    by_cases hbinds : link.binds level = true
    · have hfuel : 2 * (link :: links).length ≤ fuel := by
        simp only [List.length_cons, reduceCtorEq, or_false] at hfuel ⊢
        omega
      obtain ⟨r1, rest1, heq1, h1⟩ := hclimb link.op.level r (link :: links) hfuel hr hready
      have hlen := h1.length_eq
      -- Climbing takes the operator in front, for it is of the level asked for.
      have hne : r1 ≠ r := by
        rintro rfl
        have hrest : rest1 = link :: links := List.append_cancel_left h1.links
        exact Nat.lt_irrefl _ (h1.stops link (by rw [hrest]; rfl))
      obtain ⟨hgrown, n, hn, hle⟩ := h1.root.resolve_left hne
      have hroot1 : ∀ m ∈ r1.level?, Takes level m := by
        intro m hm
        obtain rfl := Option.mem_unique hn hm
        exact (binds_iff.mp hbinds).mono hle
      obtain ⟨r2, rest2, heq2, h2⟩ := hraise level r1 rest1 (by omega) h1.respects h1.ready hroot1
      refine ⟨r2, rest2, ?_, h1.toExtends.trans h2.toExtends, h2.stops, h2.root⟩
      rw [raise, if_pos hbinds, heq1]
      exact heq2
    · exact ⟨r, link :: links, by rw [raise, if_neg hbinds], .refl hr hready,
        by simpa [← binds_iff] using hbinds, hroot⟩

/-- Twice the number of links is deep enough. -/
theorem climbSpec (fuel : Nat) : ClimbSpec fuel ∧ RaiseSpec fuel := by
  induction fuel with
  | zero =>
    constructor
    · intro min g links hfuel hg hready
      obtain rfl : links = [] := List.eq_nil_of_length_eq_zero (by omega)
      exact ⟨g, [], rfl, .refl hg hready, nofun, .inl rfl⟩
    · intro level r links hfuel hr hready hroot
      obtain rfl : links = [] := hfuel.resolve_left (Nat.not_lt_zero _)
      exact ⟨r, [], rfl, .refl hr hready, nofun, hroot⟩
  | succ fuel ih => exact ⟨climbSpec_succ ih.1 ih.2, raiseSpec_succ ih.1 ih.2⟩

/-- The tree of a chain is that of a grouping which holds the operands and operators of the chain in
order and respects their levels. -/
theorem exists_grouping (first : Expr) (links : List Link) :
    ∃ g : Grouping, g.first = first ∧ g.links = links ∧ g.Respects ∧ tree first links = g.expr := by
  obtain ⟨g, rest, heq, hc⟩ := (climbSpec (2 * links.length + 2)).1 0 (.operand first) links (by omega)
    trivial nofun
  -- No operator is below level 0, so none is left over.
  have hrest : rest = [] := by
    cases rest with
    | nil => rfl
    | cons x => exact absurd (hc.stops x rfl) (Nat.not_lt_zero _)
  subst hrest
  exact ⟨g, hc.first, by simpa [Grouping.links] using hc.links, hc.respects, congrArg Prod.fst heq⟩

/-- The tree of a chain is the only grouping that holds the operands and operators of the chain in order
and respects their levels. -/
theorem tree_groups_uniquely (first : Expr) (links : List Link) :
    ∃ g : Grouping, (g.first = first ∧ g.links = links ∧ g.Respects ∧ tree first links = g.expr) ∧
      ∀ h : Grouping, h.first = first → h.links = links → h.Respects → h = g := by
  obtain ⟨g, hfirst, hlinks, hg, htree⟩ := exists_grouping first links
  refine ⟨g, ⟨hfirst, hlinks, hg, htree⟩, fun h hf hl hh => ?_⟩
  exact hh.unique hg (hf.trans hfirst.symm) (hl.trans hlinks.symm)

end Link

end ScriptOptimizer
