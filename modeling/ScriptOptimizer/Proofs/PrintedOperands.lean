import ScriptOptimizer.Compile
import ScriptOptimizer.Proofs.LexedTokens
import ScriptOptimizer.Proofs.NumberText

/-!
# Printed operands

The language standard restricts the operands of some operators: the left operand of `**` must not begin with
a unary operator, and `??` must not be mixed with `||` and `&&`, unless the operand is in parentheses. The main
statement says which operations the printer writes as the standard demands.
-/

namespace ScriptOptimizer

def Expr.operation? : Expr → Option (BinaryOp × Expr × Expr)
  | .binary _ op l r | .logical _ op l r => some (op, l, r)
  | _ => none

namespace Printer

/-! ## The standard -/

/-- Whether the first token of a text is a unary operator. -/
def spellsUnary (text : String) : Bool :=
  (Lexer.lexeme? text.toList).any fun (_, n) =>
    String.ofList (text.toList.take n) ∈ ["-", "+", "!", "~", "typeof", "void", "delete"]

/-- Whether the first token of some pieces is a unary operator. -/
def beginsUnary : List Piece → Bool
  | .glued text :: _ | .word text :: _ => spellsUnary text
  | _ => false

/-- Whether an operand of a logical operator is an operation with one that must not be mixed with it. -/
def mixes (op : BinaryOp) (x : Expr) : Bool :=
  x.operation?.any fun (inner, _) =>
    op.isLogical && inner.isLogical && decide (op = .nullish) != decide (inner = .nullish)

/-- The left operand of an operation as it is printed. -/
def left (op : BinaryOp) (l r : Expr) : List Piece := operand (operandMins op l r).1 l (expr l)

/-- The right operand of an operation as it is printed. -/
def right (op : BinaryOp) (l r : Expr) : List Piece := operand (operandMins op l r).2 r (expr r)

/-- Whether the operands of an operation are printed as the standard demands. -/
structure Allowed (op : BinaryOp) (l r : Expr) : Prop where
  power : op = .power → left op l r = parens (expr l) ∨ beginsUnary (left op l r) = false
  left_mixed : mixes op l = true → left op l r = parens (expr l)
  right_mixed : mixes op r = true → right op l r = parens (expr r)

/-! ## Operands that begin with an operator -/

/-- The expression that the text of a chain of calls and members begins with. -/
def base : Expr → Expr
  | .call _ c _ => base c
  | .member _ o _ | .index _ o _ => base o
  | e => e

/-- Whether the text of a chain of calls and members begins with a name that is spelled like an operator. -/
def baseUnary (e : Expr) : Bool :=
  match base e with
  | .ident _ name => spellsUnary name
  | _ => false

/-- Whether an expression begins with a unary operator in front of `**`: a literal that is written with one, or
a name or an update that is spelled like one. -/
def leadsUnary : Expr → Bool
  | .literal _ .undefined => true
  | .literal _ (.number x) => Number.isNegative x
  | .update _ op true _ => spellsUnary op.symbol
  | .update _ _ false x => baseUnary x
  | e => baseUnary e

/-- Whether an operand is a logical operation that is not marked as one. -/
def isUnmarked : Expr → Bool
  | .binary _ op _ _ => op = .or || op = .and
  | _ => false

/-- Whether an operation is printed with an operand that the standard does not allow. -/
def offends (op : BinaryOp) (l r : Expr) : Bool :=
  op = .power && leadsUnary l || op = .nullish && (isUnmarked l || isUnmarked r)

variable {op : BinaryOp} {e l r x : Expr} {ps : List Piece}

/-- A text does not begin with a unary operator if its first character does not start one. -/
theorem spellsUnary_of_head (text : String) (c : Char) (h : text.toList.head? = some c)
    (hc : c ∉ ['-', '+', '!', '~', 't', 'v', 'd']) : spellsUnary text = false := by
  have hheads : ∀ s ∈ ["-", "+", "!", "~", "typeof", "void", "delete"],
      ∃ d ∈ ['-', '+', '!', '~', 't', 'v', 'd'], s.toList.head? = some d := by simp
  rw [spellsUnary, Option.any_eq_false]
  rintro ⟨k, n⟩ -
  refine decide_eq_false fun hmem => ?_
  obtain ⟨d, hd, hhead⟩ := hheads _ hmem
  rw [String.toList_ofList, List.head?_take] at hhead
  split at hhead
  · cases hhead
  · rw [h, Option.some.injEq] at hhead
    exact hc (hhead ▸ hd)

theorem spellsUnary_minus {text : String} {c : Char} {cs : List Char} (h : text.toList = '-' :: c :: cs)
    (hc : Number.isNumberStart c = true) : spellsUnary text = true := by
  have hminus : c ≠ '-' := by
    rintro rfl
    cases hc
  have hset : c ≠ '=' := by
    rintro rfl
    cases hc
  have hlexeme : Lexer.lexeme? ('-' :: c :: cs) = some (.punct, 1) := by
    rw [Lexer.lexeme?_mark (by decide)]
    simp [Lexer.punctLength?, Lexer.marks, List.isPrefixOf, hminus.symm, hset.symm, show "-".length = 1 from rfl]
  rw [spellsUnary, h, hlexeme]
  rfl

/-- A literal begins with a unary operator if it is undefined or a negative number. -/
theorem beginsUnary_literal (v : Literal) (qs : List Piece) :
    beginsUnary (literal v ++ qs) = leadsUnary (.literal {} v) := by
  cases v with
  | number x =>
    show spellsUnary (Number.display x) = Number.isNegative x
    obtain ⟨c, hc, hstart⟩ := (Option.any_eq_true _ _).mp (Number.head_unsignedText x)
    cases hn : Number.isNegative x with
    | true =>
      obtain ⟨cs, hcs⟩ := List.head?_eq_some_iff.mp hc
      refine @spellsUnary_minus _ c cs ?_ hstart
      rw [Number.toList_display, hn, hcs]
      rfl
    | false =>
      refine spellsUnary_of_head _ c ?_ fun hmem => ?_
      · rw [Number.toList_display, hn]
        exact hc
      · simp only [List.mem_cons, List.not_mem_nil, or_false] at hmem
        rcases hmem with rfl | rfl | rfl | rfl | rfl | rfl | rfl <;> cases hstart
  | string t => exact spellsUnary_of_head (Quoted.encode t) '"' (by simp [Quoted.encode]) (by decide)
  | bool b =>
    cases b
    · exact spellsUnary_of_head "false" 'f' (by decide) (by decide)
    · show spellsUnary "true" = false
      decide
  | null => exact spellsUnary_of_head "null" 'n' (by decide) (by decide)
  | undefined =>
    show spellsUnary "void" = true
    decide

theorem beginsUnary_parens (ps qs : List Piece) : beginsUnary (parens ps ++ qs) = false :=
  spellsUnary_of_head "(" '(' (by decide) (by decide)

theorem operand_eq_of_le {min : Nat} (h : min ≤ e.level) : operand min e ps = ps := if_neg (Nat.not_lt.mpr h)

theorem operand_eq_parens {min : Nat} (h : e.level < min) : operand min e ps = parens ps := if_pos h

theorem beginsUnary_memberObject (o : Expr) (qs : List Piece) :
    beginsUnary (memberObject o (expr o) ++ qs) = beginsUnary (operand Rank.call.level o (expr o) ++ qs) := by
  unfold memberObject
  split
  · next p x =>
    rw [beginsUnary_parens]
    cases hn : Number.isNegative x with
    | true => rw [operand_eq_parens (by simp [Expr.level, hn]; decide), beginsUnary_parens]
    | false =>
      rw [operand_eq_of_le (by simp [Expr.level, hn]; decide), expr, beginsUnary_literal]
      exact hn.symm
  · rfl

theorem level_lt_unary (op : BinaryOp) : op.level < Rank.unary.level := by
  cases op <;> first | decide | exact Nat.zero_lt_succ _

/-- What an operand that binds like a call begins with. -/
theorem beginsUnary_operand (x : Expr) (qs : List Piece) :
    beginsUnary (operand Rank.call.level x (expr x) ++ qs) = baseUnary x := by
  -- The induction follows the chain, whose text stands in front of the arguments and names of its links.
  induction x using base.induct generalizing qs with
  | case1 p c as ih =>
    rw [operand_eq_of_le (e := .call p c as) (Nat.le_refl Rank.call.level), expr, List.append_assoc]
    exact ih _
  | case2 p o name ih =>
    have hlevel : Rank.call.level ≤ Rank.member.level := by decide
    rw [operand_eq_of_le hlevel, expr, List.append_assoc, beginsUnary_memberObject]
    exact ih _
  | case3 p o k ih =>
    have hlevel : Rank.call.level ≤ Rank.member.level := by decide
    rw [operand_eq_of_le hlevel, expr, List.append_assoc, List.append_assoc, beginsUnary_memberObject]
    exact ih _
  | case4 e hcall hmember hindex =>
    have weak (hlevel : e.level < Rank.call.level) (hbase : baseUnary e = false) :
        beginsUnary (operand Rank.call.level e (expr e) ++ qs) = baseUnary e := by
      rw [operand_eq_parens hlevel, beginsUnary_parens, hbase]
    have tight (hlevel : Rank.call.level ≤ e.level) (htext : beginsUnary (expr e ++ qs) = baseUnary e) :
        beginsUnary (operand Rank.call.level e (expr e) ++ qs) = baseUnary e := by
      rw [operand_eq_of_le hlevel, htext]
    have hprimary : Rank.call.level ≤ Rank.primary.level := by decide
    cases e with
    | call p c as => exact absurd rfl (hcall p c as)
    | member p o name => exact absurd rfl (hmember p o name)
    | index p o k => exact absurd rfl (hindex p o k)
    | sequence | raw | assign | conditional | unary | update => exact weak (by rw [Expr.level]; decide) rfl
    | binary p op l r | logical p op l r => exact weak (Nat.lt_trans (level_lt_unary op) (by decide)) rfl
    | hole | ident => exact tight hprimary rfl
    | literal p v =>
      cases v with
      | undefined => exact weak (by rw [Expr.level]; decide) rfl
      | number x =>
        cases hn : Number.isNegative x with
        | true => exact weak (by simp [Expr.level, hn]; decide) rfl
        | false => exact tight (by simp [Expr.level, hn]; decide) ((beginsUnary_literal (.number x) qs).trans hn)
      | string t => exact tight hprimary (beginsUnary_literal (.string t) qs)
      | bool b => exact tight hprimary (beginsUnary_literal (.bool b) qs)
      | null => exact tight hprimary (beginsUnary_literal .null qs)
    | receiver =>
      have hthis : spellsUnary "this" = false := by decide
      exact tight hprimary hthis
    | array => exact tight hprimary (spellsUnary_of_head "[" '[' (by decide) (by decide))
    | object p ps =>
      refine tight hprimary ?_
      cases ps <;> exact spellsUnary_of_head "\x7b" '{' (by decide) (by decide)
    | spread => exact tight hprimary (spellsUnary_of_head "..." '.' (by decide) (by decide))
    | function p f =>
      cases f
      exact tight hprimary (spellsUnary_of_head "function" 'f' (by decide) (by decide))
    | construct p c as =>
      have hnew : spellsUnary "new" = false := spellsUnary_of_head _ 'n' (by decide) (by decide)
      cases as with
      | none =>
        have hlevel : Rank.call.level ≤ Rank.member.level := by decide
        exact tight hlevel hnew
      | some as => exact tight (Nat.le_refl Rank.call.level) hnew

/-- What the left operand of `**` begins with. -/
theorem beginsUnary_left (l r : Expr) : beginsUnary (left .power l r) = leadsUnary l := by
  -- Only operators in front, updates and signed literals bind between `**` and a call.
  have same (hmin : (operandMins .power l r).1 = Rank.unary.level)
      (hlevel : l.level < Rank.unary.level ∨ Rank.call.level ≤ l.level) (hl : leadsUnary l = baseUnary l) :
      beginsUnary (left .power l r) = leadsUnary l := by
    have hcall : Rank.unary.level ≤ Rank.call.level := by decide
    rw [left, hmin, hl, ← beginsUnary_operand l [], List.append_nil]
    rcases hlevel with hlevel | hlevel
    · rw [operand_eq_parens hlevel, operand_eq_parens (Nat.lt_of_lt_of_le hlevel hcall)]
    · rw [operand_eq_of_le (Nat.le_trans hcall hlevel), operand_eq_of_le hlevel]
  cases l with
  | unary p o x =>
    have hlevel : Rank.unary.level < Rank.primary.level := by decide
    exact (congrArg beginsUnary (operand_eq_parens hlevel)).trans (beginsUnary_parens (expr (.unary p o x)) [])
  | update p o inFront x =>
    have hlevel : Rank.unary.level ≤ Rank.update.level := by decide
    refine (congrArg beginsUnary (operand_eq_of_le hlevel)).trans ?_
    cases inFront with
    | true => rfl
    | false => exact beginsUnary_operand x _
  | literal p v =>
    have hlevel : Rank.unary.level ≤ (Expr.literal p v).level := by
      cases v with
      | number x =>
        rw [Expr.level]
        split <;> decide
      | _ => simp only [Expr.level]; decide
    refine (congrArg beginsUnary (operand_eq_of_le hlevel)).trans ?_
    rw [expr, ← List.append_nil (literal v), beginsUnary_literal]
    cases v <;> rfl
  | binary p op a b | logical p op a b => exact same rfl (.inl (level_lt_unary op)) rfl
  | construct p c as =>
    refine same rfl (.inr ?_) rfl
    rw [Expr.level]
    split <;> decide
  | _ => exact same rfl (by simp only [Expr.level]; decide) rfl

theorem eq_of_isLogical (h : op.isLogical = true) : op = .nullish ∨ op = .or ∨ op = .and := by
  cases op <;> simp_all [BinaryOp.isLogical]

/-- An operand that mixes is in parentheses, except an unmarked one of `??`. -/
theorem operand_mixed {min : Nat} (h : mixes op x = true) (hmin : op.level ≤ min) (hmax : min ≤ op.level + 1) :
    operand (logicalMin op x min) x (expr x) = parens (expr x) ↔ (op = .nullish → isUnmarked x = false) := by
  cases x with
  | logical p inner a b =>
    simp only [mixes, Expr.operation?, Option.any_some, Bool.and_eq_true] at h
    rw [logicalMin, if_pos h.2, operand_eq_parens (Nat.lt_trans (level_lt_unary inner) (by decide))]
    exact ⟨fun _ _ => rfl, fun _ => rfl⟩
  | binary p inner a b =>
    simp only [mixes, Expr.operation?, Option.any_some, Bool.and_eq_true] at h
    obtain ⟨⟨hop, hinner⟩, hmixed⟩ := h
    have hsame : logicalMin op (.binary p inner a b) min = min := rfl
    by_cases hnull : op = .nullish
    · have hstronger : op.level + 1 ≤ (Expr.binary p inner a b).level ∧ isUnmarked (.binary p inner a b) = true := by
        subst hnull
        rcases eq_of_isLogical hinner with rfl | rfl | rfl
        · cases hmixed
        · exact ⟨by simp only [Expr.level]; decide, rfl⟩
        · exact ⟨by simp only [Expr.level]; decide, rfl⟩
      rw [hsame, operand_eq_of_le (Nat.le_trans hmax hstronger.1)]
      refine iff_of_false (fun heq => ?_) fun himp => ?_
      · have hlength := congrArg List.length heq
        simp only [parens, List.length_append, List.length_cons] at hlength
        omega
      · rw [hstronger.2] at himp
        cases himp hnull
    · have hinner : inner = .nullish := by simpa [hnull] using hmixed
      have hweaker : inner.level < op.level := by
        subst hinner
        rcases eq_of_isLogical hop with rfl | rfl | rfl
        · cases hmixed
        · decide
        · decide
      rw [hsame, operand_eq_parens (Nat.lt_of_lt_of_le hweaker hmin)]
      exact iff_of_true rfl fun h => absurd h hnull
  | _ => cases h

theorem isLogical_of_mixes (h : mixes op x = true) : op.isLogical = true := by
  obtain ⟨y, -, hy⟩ := (Option.any_eq_true _ _).mp h
  simp only [Bool.and_eq_true] at hy
  exact hy.1.1

theorem mixes_of_isUnmarked (h : isUnmarked x = true) : mixes .nullish x = true := by
  cases x with
  | binary p inner a b =>
    simp only [isUnmarked, Bool.or_eq_true, decide_eq_true_eq] at h
    rcases h with rfl | rfl <;> rfl
  | _ => cases h

theorem left_mixed (h : mixes op l = true) : left op l r = parens (expr l) ↔
    (op = .nullish → isUnmarked l = false) := by
  rw [← operand_mixed h (Nat.le_refl _) (Nat.le_succ _)]
  rcases eq_of_isLogical (isLogical_of_mixes h) with rfl | rfl | rfl <;> rfl

theorem right_mixed (h : mixes op r = true) :
    right op l r = parens (expr r) ↔ (op = .nullish → isUnmarked r = false) := by
  rw [← operand_mixed h (Nat.le_succ _) (Nat.le_refl _)]
  rcases eq_of_isLogical (isLogical_of_mixes h) with rfl | rfl | rfl <;> rfl

theorem not_allowed_of_leadsUnary (h : leadsUnary l = true) : ¬ Allowed .power l r := by
  intro hallowed
  rw [← beginsUnary_left l r] at h
  rcases hallowed.power rfl with hparens | hplain
  · rw [hparens, ← List.append_nil (parens _), beginsUnary_parens] at h
    cases h
  · rw [hplain] at h
    cases h

/-- The operands of an operation are printed as the standard demands, except for a left operand of `**` that begins
with a unary operator and for unmarked operations as operands of `??`. -/
theorem allowed_iff (h : e.operation? = some (op, l, r)) :
    expr e = left op l r ++ infixSymbol op ++ right op l r ∧ (Allowed op l r ↔ offends op l r = false) := by
  have hprinted : expr e = left op l r ++ infixSymbol op ++ right op l r := by
    cases e <;> cases h <;> rw [expr] <;> rfl
  refine ⟨hprinted, fun hallowed => ?_, fun hoffends => ?_⟩
  · rw [← Bool.not_eq_true]
    intro hoffends
    simp only [offends, Bool.or_eq_true, Bool.and_eq_true, decide_eq_true_eq] at hoffends
    rcases hoffends with ⟨rfl, hl⟩ | ⟨rfl, hl | hr⟩
    · exact not_allowed_of_leadsUnary hl hallowed
    · have hmixed := mixes_of_isUnmarked hl
      rw [(left_mixed hmixed).mp (hallowed.left_mixed hmixed) rfl] at hl
      cases hl
    · have hmixed := mixes_of_isUnmarked hr
      rw [(right_mixed hmixed).mp (hallowed.right_mixed hmixed) rfl] at hr
      cases hr
  · simp only [offends, Bool.or_eq_false_iff, Bool.and_eq_false_imp, decide_eq_true_eq] at hoffends
    obtain ⟨hpower, hnullish⟩ := hoffends
    refine ⟨fun hop => .inr ?_, fun hmixed => (left_mixed hmixed).mpr fun hop => (hnullish hop).1,
      fun hmixed => (right_mixed hmixed).mpr fun hop => (hnullish hop).2⟩
    subst hop
    rw [beginsUnary_left]
    exact hpower rfl

/-- An operand with a unary operator in front of `**`, and `||` inside `??`. -/
theorem allowed_guarded :
    Allowed .power (.unary {} .minus (.ident {} "a")) (.ident {} "b") ∧
    Allowed .nullish (.logical {} .or (.ident {} "a") (.ident {} "b")) (.ident {} "c") :=
  ⟨(allowed_iff (e := .binary {} .power (.unary {} .minus (.ident {} "a")) (.ident {} "b")) rfl).2.mpr (by decide),
    (allowed_iff (e := .logical {} .nullish (.logical {} .or (.ident {} "a") (.ident {} "b")) (.ident {} "c"))
      rfl).2.mpr (by decide)⟩

/-- A negative number that folding leaves in front of `**` is printed without parentheses. -/
theorem compile_negativePower :
    (compileSource {} "" "function h(x) { return (-1) ** x; }").toOption =
      some "function h(x) \x7b\n  return -1 ** x;\n\x7d" ∧
    expr (.binary {} .power (.literal {} (.number (-1))) (.ident {} "x")) =
      [.word "-1", .space, .word "**", .space, .word "x"] ∧
    ¬ Allowed .power (.literal {} (.number (-1))) (.ident {} "x") := by
  refine ⟨by decide +kernel, by decide +kernel, not_allowed_of_leadsUnary ?_⟩
  decide +kernel

end Printer

end ScriptOptimizer
