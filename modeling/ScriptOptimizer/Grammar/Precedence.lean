import ScriptOptimizer.Syntax.Tree

/-!
# Operator chains

The grammar reads operands and binary operators as a flat chain. Precedence climbing turns a chain into
a tree: operators of higher level bind tighter, operators of one level group to the left, and `**`
groups to the right.
-/

namespace ScriptOptimizer

/-- An operator of a chain and the operand behind it. -/
structure Link where
  pos : Position
  op : BinaryOp
  right : Expr

namespace Link

/-- The tree of an operator and its two operands. -/
def combine (link : Link) (left right : Expr) : Expr :=
  if link.op.isLogical then .logical link.pos link.op left right
  else .binary link.pos link.op left right

/-- Whether an operator takes the operand in front of it away from an operator of level `level`. -/
def binds (link : Link) (level : Nat) : Bool :=
  level < link.op.level || (link.op.level == level && link.op == .power)

mutual

/-- Extends `left` by the operators of at least level `min`; gives the tree and the links left over. -/
def climb : Nat → Expr → Nat → List Link → Expr × List Link
  | 0, left, _, links => (left, links)
  | _, left, _, [] => (left, [])
  | fuel + 1, left, min, link :: links =>
    if link.op.level < min then (left, link :: links)
    else
      let (right, links) := raise fuel link.op.level link.right links
      climb fuel (link.combine left right) min links

/-- Extends the right operand of an operator of level `level` by the operators that bind tighter. -/
def raise : Nat → Nat → Expr → List Link → Expr × List Link
  | 0, _, right, links => (right, links)
  | _, _, right, [] => (right, [])
  | fuel + 1, level, right, link :: links =>
    if link.binds level then
      let (right, links) := climb fuel right link.op.level (link :: links)
      raise fuel level right links
    else (right, link :: links)

end

/-- The tree of a chain. Every operator is taken up once and passed at most once more, so twice the
number of links bounds the depth. -/
def tree (first : Expr) (links : List Link) : Expr :=
  (climb (2 * links.length + 2) first 0 links).1

end Link

end ScriptOptimizer
