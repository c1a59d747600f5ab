import ScriptOptimizer.Grammar.Expression
import ScriptOptimizer.Proofs.MatcherRuns

/-!
# Two runs of the grammar of expressions

On tokens that are alike, each production makes trees that are equal without positions, and the marks and
names of the first tree are aligned with the tokens that it is read from. Where the first tree has no fault, the
second one has none either, unless an item of a list starts at the place at which the tokens differ.
-/

namespace ScriptOptimizer

namespace Checked

variable {α β : Type}

@[simp]
theorem value_pure (a : α) : (pure a : Checked α).value = a := rfl

@[simp]
theorem fault_pure (a : α) : (pure a : Checked α).fault = none := rfl

@[simp]
theorem value_bind (x : Checked α) (f : α → Checked β) : (x >>= f).value = (f x.value).value := rfl

@[simp]
theorem fault_bind (x : Checked α) (f : α → Checked β) :
    (x >>= f).fault = none ↔ x.fault = none ∧ (f x.value).fault = none := by
  show (x.fault <|> (f x.value).fault) = none ↔ _
  cases x.fault <;> simp

@[simp]
theorem fault_fail (x : Fault) (pos : Position) : (fail x pos).fault ≠ none := nofun

@[simp]
theorem fault_list_cons (x : Checked α) (xs : List (Checked α)) :
    (list (x :: xs)).fault = none ↔ x.fault = none ∧ (list xs).fault = none := by
  simp [list]

end Checked

variable {α β γ δ : Type} {bad : Position} {u : Option Token} {t : Token} {s s1 s2 : List Token}
  {ok ok' ok1 ok1' : Prop} {a : Trail} {m m1 : Bool → Trail}

theorem Token.after_concat (s : List Token) (t : Token) (u : Option Token) : after u (s ++ [t]) = some t :=
  after_append s [t] u

namespace Part

theorem congr (h : Part bad u s ok ok' a) (h1 : ok1 → ok) (h2 : ok' → ok1') : Part bad u s ok1 ok1' a :=
  ⟨fun ho hm => h2 (h.clean (h1 ho) hm), fun ho => h.aligned (h1 ho), h.named⟩

theorem cons (ht : t.isUpdate = false) (h : Part bad (some t) s ok ok' a) : Part bad u (t :: s) ok ok' a :=
  (Head.cons ht h).part

theorem concat (h : Part bad u s ok ok' a) (ht : t.isUpdate = false) : Part bad u (s ++ [t]) ok ok' a := by
  have h := (h.append (token ht)).congr (fun ho : ok => ⟨ho, trivial⟩) And.left
  rwa [Trail.append_nil] at h

/-- An update operator behind its target. -/
theorem update (ht : t.isUpdate = true) (hu : EndsExpr u) :
    Part bad u [t] True True { marks := [.update (.ofSymbol t.text) false false] } :=
  ⟨fun _ _ => trivial, fun _ => .update ht (fun _ => hu) nofun nofun .nil, .nil⟩

/-- A token at which a name may stand besides those behind it. -/
theorem spot {n : Option Spot} {ok2 ok2' : Prop} (h1 : Part bad u [t] ok1 ok1' {}) (h2 : Part bad (some t) s ok2 ok2' a)
    (hn : ∀ x ∈ n, Stands x (t :: s) s) :
    Part bad u (t :: s) (ok1 ∧ ok2) (ok1' ∧ ok2') ⟨a.marks, n.toList ++ a.names⟩ where
  clean := (h1.append h2).clean
  aligned := (h1.append h2).aligned
  named := by
    cases n with
    | none => exact .skip h2.named
    | some x => exact .cons (hn x rfl) h2.named

end Part

theorem Head.congr (h : Head bad u s ok ok' m) (h1 : ok1 → ok) (h2 : ok' → ok1') (hm : ∀ l, m1 l = m l) :
    Head bad u s ok1 ok1' m1 := by
  obtain rfl : m1 = m := funext hm
  exact ⟨h.nonempty, fun ho hn => h2 (h.clean (h1 ho) hn), fun ho => h.aligned (h1 ho), h.named⟩

/-! ## What two runs read -/

/-- Two trees that `f` does not tell apart and the tokens that the first one is read from. -/
structure Reads (f : α → γ) (m : Bool → α → Trail) (bad : Position) (u : Option Token) (s : List Token)
    (x x' : Checked α) : Prop where
  same : f x'.value = f x.value
  head : Head bad u s (x.fault = none) (x'.fault = none) fun l => m l x.value

/-- Two parts of trees that nothing leads to. -/
structure Carries (f : α → γ) (m : α → Trail) (bad : Position) (u : Option Token) (s : List Token)
    (x x' : Checked α) : Prop where
  same : f x'.value = f x.value
  part : Part bad u s (x.fault = none) (x'.fault = none) (m x.value)

abbrev ExprRead := Reads Expr.unplaced Expr.trail

/-- Two expressions that can be the target of an update operator behind them. -/
def ChainRead (bad : Position) (u : Option Token) (s : List Token) (x x' : Checked Expr) : Prop :=
  ExprRead bad u s x x' ∧ EndsExpr (Token.after u s)

def FuncRead (bad : Position) (u : Option Token) (s : List Token) (x x' : Checked Func) : Prop :=
  Reads Func.unplaced (fun _ f => f.trail) bad u s x x' ∧ EndsExpr (Token.after u s)

def StmtRead (bad : Position) (u : Option Token) (s : List Token) (x x' : Checked Stmt) : Prop :=
  Reads Stmt.unplaced Stmt.trail bad u s x x' ∧ ∀ t ∈ s.head?, t.pos = x.value.pos

variable {f : α → γ} {m : Bool → α → Trail} {x x' : Checked α}

theorem Reads.carries (h : Reads f m bad u s x x') : Carries f (m false) bad u s x x' := ⟨h.same, h.head.part⟩

/-- An expression that is read from one token. -/
theorem ChainRead.leaf {x x' : Checked Expr} (ht : t.isUpdate = false) (he : EndsExpr (some t))
    (hs : x'.value.unplaced = x.value.unplaced) (hf : x.fault = none → x'.fault = none)
    (hm : ∀ l, x.value.trail l = {}) : ChainRead bad u [t] x x' :=
  ⟨⟨hs, (Head.cons ht (Part.nil hf)).congr id id hm⟩, he⟩

open Matcher

namespace Carries

variable {m : α → Trail} {F : List α → δ} {M : List α → Trail} {xs xs' : List (Checked α)}

theorem cons (ht : t.isUpdate = false) (h : Carries f m bad (some t) s x x') : Carries f m bad u (t :: s) x x' :=
  ⟨h.same, h.part.cons ht⟩

/-- A part without marks that is read from one token. -/
theorem leaf (ht : t.isUpdate = false) (hs : f x'.value = f x.value) (hf : x.fault = none → x'.fault = none)
    (hm : m x.value = {}) : Carries f m bad u [t] x x' := ⟨hs, hm ▸ (Part.nil hf).cons ht⟩

theorem of_led {separator : String} (hsep : (separator == "++" || separator == "--") = false)
    (h : Tracks.Led separator (Carries f m bad) u s x x') : Carries f m bad u s x x' := by
  obtain ⟨t, s, rfl, rfl, h⟩ := h
  exact h.cons hsep

/-- A view of lists that goes by their members. -/
structure Listing (f : α → γ) (m : α → Trail) (F : List α → δ) (M : List α → Trail) : Prop where
  cons {a a' : α} {as as' : List α} (h : f a' = f a) (hs : F as' = F as) : F (a' :: as') = F (a :: as)
  marks_nil : M [] = {}
  marks_cons (a : α) (as : List α) : M (a :: as) = m a ++ M as

theorem list (hl : Listing f m F M) (h : Tracks.Each (Carries f m bad) u s xs xs') :
    Carries F M bad u s (Checked.list xs) (Checked.list xs') := by
  induction h with
  | nil => exact ⟨rfl, by simpa [Checked.list, hl.marks_nil] using Part.nil id⟩
  | cons h _ ih =>
    refine ⟨hl.cons h.same ih.same, ?_⟩
    have hpart := h.part.append ih.part
    rw [← hl.marks_cons] at hpart
    exact hpart.congr (by simp) (by simp)

theorem listed {separator : String} (hsep : (separator == "++" || separator == "--") = false)
    (hl : Listing f m F M) (h : Tracks.Listed separator (Carries f m bad) u s xs xs') :
    Carries F M bad u s (Checked.list xs) (Checked.list xs') := by
  obtain ⟨h, hs⟩ := h
  exact list hl (.cons h (hs.mono fun _ _ _ _ => of_led hsep))

end Carries

open Carries (Listing)

attribute [local simp] Expr.trail exprTrail optionTrail propertyTrail Func.trail Expr.marks exprMarks optionMarks propertyMarks
  Walk.expr Walk.exprs Walk.optExpr Walk.properties Semantic.label?

theorem Carries.Listing.exprs : Listing Expr.unplaced (Expr.trail false) unplacedExprs (exprTrail false) :=
  ⟨fun h hs => by simp [unplacedExprs, h, hs], rfl, fun _ _ => by simp⟩

/-- Two members of objects. -/
abbrev PropertyRead := Carries (fun p : Property => unplacedProperties [p]) fun p => propertyTrail [p]

theorem Carries.Listing.properties : Listing (fun p : Property => unplacedProperties [p]) (fun p => propertyTrail [p])
    unplacedProperties propertyTrail where
  cons {a a' _ _} h hs := by
    cases a <;> cases a' <;> simp_all [unplacedProperties]
  marks_nil := rfl
  marks_cons a _ := by cases a <;> simp [propertyMarks]

/-! ## Tokens of a production -/

/-- A token with a given text that is no update operator. -/
structure Token.Spells (x : String) (t : Token) : Prop where
  text : t.text = x
  plain : t.isUpdate = false
  lexed : t.Lexed

theorem Token.Spells.ends {x : String} (h : t.Spells x) (hx : x ∈ [")", "]", "\x7d"]) : EndsExpr (some t) := by
  have hkind : t.kind = .punct := h.lexed.punct
    (by rw [h.text]; exact List.mem_cons_of_mem _ (List.mem_cons_of_mem _ hx))
  refine ⟨t, rfl, .inr ?_⟩
  simp only [List.mem_cons, List.not_mem_nil, or_false] at hx
  rcases hx with rfl | rfl | rfl <;> simp [Scan.endsOperand, Token.isPunct, hkind, h.text]

namespace Matcher.Tracks

variable {W : List Token → β → β → Prop} {p p' : Matcher β}

theorem word (x : String) (hx : (x == "++" || x == "--") = false)
    (h : ∀ t, Token.Spells x t → Tracks bad (some t) true (fun s => W (t :: s)) p p') :
    Tracks bad u false W (Matcher.text x >>= fun _ => p) (Matcher.text x >>= fun _ => p') := by
  refine (text x).bind ?_
  rintro _ t t' ⟨rfl, rfl, hl, -⟩
  exact h t ⟨rfl, hx, hl⟩

theorem skip (x : String) (hx : (x == "++" || x == "--") = false)
    (h : ∀ t, Token.Spells x t → Tracks bad (some t) true (fun s => W (t :: s)) p p') :
    Tracks bad u true W (Matcher.item (.text x) >>= fun _ => p) (Matcher.item (.text x) >>= fun _ => p') := by
  refine (item (text x)).bind ?_
  rintro _ t t' ⟨rfl, rfl, hl, -⟩
  exact h t ⟨rfl, hx, hl⟩

end Matcher.Tracks

namespace Grammar

/-- The productions that others refer back to do the same on tokens that are alike. -/
structure Rules.Agree (bad : Position) (g : Rules) : Prop where
  statement (u : Option Token) : Tracks bad u false (StmtRead bad u) g.statement g.statement
  assignment (u : Option Token) : Tracks bad u false (ExprRead bad u) g.assignment g.assignment
  unary (u : Option Token) : Tracks bad u false (ExprRead bad u) g.unary g.unary
  chainHead (u : Option Token) : Tracks bad u false (ChainRead bad u) g.chainHead g.chainHead
  function (u : Option Token) : Tracks bad u false (FuncRead bad u) g.function g.function

/-! ## Names and literals -/

@[simp]
theorem value_checkName (n : String) (pos : Position) : (checkName n pos).value = n := by
  unfold checkName
  split <;> rfl

@[simp]
theorem fault_checkName (n : String) (pos : Position) : (checkName n pos).fault = none ↔ isReserved n = false := by
  unfold checkName
  split <;> simp_all

/-- What a literal stands for does not depend on its position. -/
theorem checkNumber_at (x : String) (p p' : Position) : (checkNumber x p').value = (checkNumber x p).value ∧
    ((checkNumber x p).fault = none → (checkNumber x p').fault = none) := by
  unfold checkNumber
  split <;> simp

theorem checkString_at (x : String) (p p' : Position) : (checkString x p').value = (checkString x p).value ∧
    ((checkString x p).fault = none → (checkString x p').fault = none) := by
  unfold checkString
  split <;> simp

/-! ## Expressions -/

variable {g : Rules}

theorem tracks_expression (hg : g.Agree bad) : Tracks bad u false (ExprRead bad u) (expression g) (expression g) := by
  refine .production (.position fun pos pos' => (Tracks.list hg.assignment).bind fun s xs xs' hxs => ?_)
  obtain ⟨h, hs⟩ := hxs
  cases hs with
  | nil => exact .value (by simpa using h)
  | cons h' hs =>
    have hrest := Carries.list .exprs <| (Tracks.Each.cons h' hs).mono fun _ _ _ _ ⟨t, s, heq, ht, h⟩ =>
      Carries.of_led rfl ⟨t, s, heq, ht, h.carries⟩
    refine .value ?_
    rw [List.append_nil]
    refine ⟨congrArg (Expr.sequence {}) (Listing.exprs.cons h.same hrest.same), ?_⟩
    exact (h.head.append hrest.part).congr (by simp) (by simp) fun _ => by simp [Checked.list]

theorem tracks_argument (hg : g.Agree bad) :
    Tracks bad u true (Carries Expr.unplaced (Expr.trail false) bad u) (argument g) (argument g) := by
  refine .production (.position fun pos pos' => (Tracks.optional (.text "...")).bind fun s o o' ho => ?_)
  refine (Tracks.item (hg.assignment _)).map fun s2 x x' hx => ?_
  cases ho with
  | none => exact hx.carries
  | some ht =>
    obtain ⟨rfl, ht, -, -⟩ := ht
    refine ⟨by simp [Expr.unplaced, hx.same], ?_⟩
    exact (Part.cons (by simp [Token.isUpdate, ht]) hx.head.part).congr (by simp) (by simp)

section Items
variable {m : α → Trail} {F : List α → δ} {M : List α → Trail} {p : Matcher (Checked α)} {sure : Bool}

theorem tracks_items (hl : Listing f m F M) (hp : ∀ u, Tracks bad u sure (Carries f m bad u) p p) :
    Tracks bad u true (Carries F M bad u) (items p) (items p) := by
  have hlist : Tracks bad u sure (fun s xs xs' => Carries F M bad u s (Checked.list xs) (Checked.list xs'))
      (do let list ← Matcher.list "," p; let _ ← Matcher.optional (.text ","); return list)
      (do let list ← Matcher.list "," p; let _ ← Matcher.optional (.text ","); return list) := by
    refine (Tracks.list hp).bind fun s xs xs' hxs => (Tracks.optional (.text ",")).map fun s2 o o' ho => ?_
    have hxs := Carries.listed rfl hl hxs
    cases ho with
    | none => simpa using hxs
    | some ht =>
      obtain ⟨rfl, ht, -, -⟩ := ht
      exact ⟨hxs.same, hxs.part.concat (by simp [Token.isUpdate, ht])⟩
  refine hlist.optional.map fun s o o' ho => ?_
  cases ho with
  | none => exact Carries.list hl .nil
  | some h => exact h

end Items

theorem tracks_arrayLit (hg : g.Agree bad) : Tracks bad u false (ChainRead bad u) (arrayLit g) (arrayLit g) := by
  refine .production (.position fun pos pos' => .word "[" rfl fun t ht =>
    (tracks_items .exprs (fun _ => tracks_argument hg)).bind fun s x x' hx => .skip "]" rfl fun e he => .value ?_)
  refine ⟨⟨by simp [Expr.unplaced, hx.same], ?_⟩, ?_⟩
  · exact (Head.cons ht.plain (hx.part.concat he.plain)).congr (by simp) (by simp) fun _ => rfl
  · rw [Token.after, Token.after_concat]
    exact he.ends (by decide)

/-- A key without positions. -/
def Key.unplaced : Key → Key
  | .computed e => .computed e.unplaced
  | k => k

/-- The marks and names of a key. -/
def Key.trail : Key → Trail
  | .computed e => e.trail false
  | _ => {}

/-- A key that is no expression is one token. -/
def Key.IsToken (s : List Token) : Key → Prop
  | .computed _ => True
  | .name n => ∃ t, s = [t] ∧ t.kind = .ident ∧ t.text = n
  | .text k => ∃ t, s = [t] ∧ (t.kind = .string ∧ k = (checkString t.text t.pos).value ∨
      t.kind = .number ∧ k = Text.ofString (Number.display (checkNumber t.text t.pos).value))

/-- A token of a kind that no operator has. -/
theorem plain_of_kind {k : TokenKind} (hl : t.Lexed) (ht : t.kind = k) (hk : k ≠ .punct) : t.isUpdate = false :=
  hl.isUpdate_eq_false (ht ▸ hk)

/-- Two keys of members. -/
def KeyRead (bad : Position) (u : Option Token) (s : List Token) (x x' : Checked Key) : Prop :=
  Carries Key.unplaced Key.trail bad u s x x' ∧ x.value.IsToken s

theorem tracks_propertyKey (hg : g.Agree bad) :
    Tracks bad u false (fun s x x' => KeyRead bad u s x.2 x'.2) (propertyKey g) (propertyKey g) := by
  refine .production (.position fun pos pos' => (Tracks.choice (V := KeyRead bad u)
    (.cons ?_ (.cons ?_ (.cons ?_ (.cons ?_ .nil))))).map fun _ _ _ h => h)
  · refine .word "[" rfl fun t ht => (Tracks.item (hg.assignment _)).bind fun s x x' hx =>
      .skip "]" rfl fun e he => .value ⟨⟨by simp [Key.unplaced, hx.same], ?_⟩, trivial⟩
    exact (Part.cons ht.plain (hx.head.part.concat he.plain)).congr (by simp) (by simp)
  · refine (Tracks.kind .ident).map ?_
    rintro _ t t' ⟨rfl, ht, hl, ht'⟩
    exact ⟨.leaf (plain_of_kind hl ht nofun) (by simp [Key.unplaced, ht'.2]) id rfl, t, rfl, ht, rfl⟩
  · refine (Tracks.kind .string).map ?_
    rintro _ t t' ⟨rfl, ht, hl, ht'⟩
    obtain ⟨hv, hf⟩ := checkString_at t.text pos pos'
    exact ⟨.leaf (plain_of_kind hl ht nofun) (by simp [Key.unplaced, ht'.2, hv]) (by simpa [ht'.2] using hf) rfl,
      t, rfl, .inl ⟨ht, (checkString_at ..).1⟩⟩
  · refine (Tracks.kind .number).map ?_
    rintro _ t t' ⟨rfl, ht, hl, ht'⟩
    obtain ⟨hv, hf⟩ := checkNumber_at t.text pos pos'
    exact ⟨.leaf (plain_of_kind hl ht nofun) (by simp [Key.unplaced, ht'.2, hv]) (by simpa [ht'.2] using hf) rfl,
      t, rfl, .inr ⟨ht, by rw [(checkNumber_at ..).1]⟩⟩

theorem shown_ofString (s : String) : (Text.ofString s).shown = s := by
  simp [Text.shown, Text.ofString, Function.comp_def, Atom.shown]

/-- A name that is written as another key. -/
theorem stands_key {key : Text} {x : String} (hk : t.kind = .string ∧ key = (checkString t.text t.pos).value ∨
      t.kind = .number ∧ key = Text.ofString (Number.display (checkNumber t.text t.pos).value))
    (h : x ∈ key.identifierName?) : Stands (t.pos, x) (t :: s) s := by
  obtain ⟨hname, hx⟩ := Option.ite_none_right_eq_some.mp h
  obtain rfl := Option.some.inj hx
  -- The value of a malformed literal is no name.
  refine .key (hk.imp (fun ⟨ht, hkey⟩ => ⟨ht, key, ?_, rfl⟩) fun ⟨ht, hkey⟩ => ⟨ht, ?_⟩) hname
  · subst hkey
    revert hname
    unfold checkString
    split
    · next ht => exact fun _ => ht
    all_goals
      intro h
      cases h
  · subst hkey
    revert hname
    unfold checkNumber
    split
    · next x hx => exact fun _ => ⟨x, hx, (shown_ofString _).symm⟩
    · rw [shown_ofString]
      change isIdentifierName (Number.display 0) = true → _
      intro h
      exact absurd h (by decide)

/-- A key that is one token, and the value behind it. -/
theorem member_part {key : Text} {e : Option Expr} {ok2 ok2' : Prop} (h1 : Part bad u [t] ok1 ok1' {})
    (h2 : Part bad (some t) s ok2 ok2' (optionTrail e))
    (hn : ∀ x ∈ key.identifierName?, Stands (t.pos, x) (t :: s) s) :
    Part bad u (t :: s) (ok1 ∧ ok2) (ok1' ∧ ok2') (propertyTrail [.named t.pos key e]) := by
  have h := h1.spot h2 (n := (Semantic.label? ⟨.plain, .property (.named t.pos key e)⟩).map fun l => (l.pos, l.name))
  refine cast ?_ (h ?_)
  · simp
  · intro x hx
    simp only [Semantic.label?] at hx
    split at hx
    · cases hx
    · obtain ⟨l, hl, rfl⟩ := Option.map_eq_some_iff.mp hx
      obtain ⟨y, hy, rfl⟩ := Option.map_eq_some_iff.mp hl
      exact hn y hy

theorem carries_checkMember {x x' : Checked Key} {v v' : Option (Checked Expr)} {pos pos' keyPos keyPos' : Position}
    (hx : KeyRead bad u s1 x x')
    (hv : Tracks.OrNone (Carries Expr.unplaced (Expr.trail false) bad (Token.after u s1)) s2 v v')
    (hpos : ∀ t ∈ (s1 ++ s2).head?, t.pos = pos) :
    PropertyRead bad u (s1 ++ s2) (x >>= (checkMember pos keyPos · v)) (x' >>= (checkMember pos' keyPos' · v')) := by
  obtain ⟨k, fault⟩ := x
  obtain ⟨k', fault'⟩ := x'
  obtain ⟨⟨hsame, hpart⟩, htoken⟩ := hx
  cases k <;> cases k' <;>
    simp only [Key.unplaced, Key.computed.injEq, Key.name.injEq, Key.text.injEq, reduceCtorEq] at hsame
  case computed.computed =>
    cases hv with
    | none =>
      refine ⟨by simp [checkMember, unplacedProperties, unplacedOption, hsame], by simp [checkMember],
        by simp [checkMember], ?_⟩
      simpa [checkMember, Key.trail] using hpart.named
    | some h =>
      refine ⟨by simp [checkMember, unplacedProperties, unplacedOption, h.same, hsame], ?_⟩
      simpa [checkMember, Key.trail] using hpart.append h.part
  case name.name =>
    obtain ⟨t, rfl, hk, rfl⟩ := htoken
    obtain rfl := hpos t rfl
    subst hsame
    cases hv with
    | none =>
      -- A name without a value must not be reserved.
      have hpart := hpart.spot (Part.nil (id : isReserved t.text = false → isReserved t.text = false))
        (n := some (t.pos, t.text)) (by simpa using .word hk)
      refine ⟨by simp [checkMember, unplacedProperties, unplacedOption, Expr.unplaced], ?_⟩
      simpa [checkMember, Semantic.isShorthand] using hpart
    | some h =>
      refine ⟨by simp [checkMember, unplacedProperties, unplacedOption, h.same], ?_⟩
      refine (member_part hpart (e := some _) h.part ?_).congr (by simp [checkMember]) (by simp [checkMember])
      intro x hx
      obtain rfl : t.text = x := by
        simp only [Text.identifierName?, shown_ofString, Option.mem_def, Option.ite_none_right_eq_some, Option.some.injEq] at hx
        exact hx.2
      exact .word hk
  case text.text =>
    obtain ⟨t, rfl, hk⟩ := htoken
    obtain rfl := hpos t rfl
    subst hsame
    cases hv with
    | none =>
      refine ⟨by simp [checkMember, unplacedProperties, unplacedOption], by simp [checkMember],
        by simp [checkMember], ?_⟩
      exact (member_part hpart (e := none) (.nil (id : True → True)) fun _ hx =>
        stands_key hk hx).named
    | some h =>
      refine ⟨by simp [checkMember, unplacedProperties, unplacedOption, h.same], ?_⟩
      exact (member_part hpart (e := some _) h.part fun _ => stands_key hk).congr
        (by simp [checkMember]) (by simp [checkMember])

theorem tracks_property (hg : g.Agree bad) : Tracks bad u false (PropertyRead bad u) (property g) (property g) := by
  refine .production (.located fun pos pos' => .choice (.cons ?_ (.cons ?_ .nil)))
  · refine .word "..." rfl fun t ht => (Tracks.item (hg.assignment _)).map fun s x x' hx _ => ?_
    refine ⟨by simp [unplacedProperties, hx.same], ?_⟩
    simpa using hx.head.part.cons ht.plain
  · refine .production ((tracks_propertyKey hg).bind fun s x x' hx => ?_)
    have hvalue (u : Option Token) : Tracks bad u false (Carries Expr.unplaced (Expr.trail false) bad u)
        (do let _ ← Matcher.text ":"; .item g.assignment) (do let _ ← Matcher.text ":"; .item g.assignment) :=
      .word ":" rfl fun t ht => (Tracks.item (hg.assignment _)).mono fun _ _ _ h => h.carries.cons ht.plain
    exact (hvalue _).optional.map fun s2 v v' hv hpos => carries_checkMember hx hv hpos

theorem tracks_objectLit (hg : g.Agree bad) : Tracks bad u false (ChainRead bad u) (objectLit g) (objectLit g) := by
  refine .production (.position fun pos pos' => .word "\x7b" rfl fun t ht =>
    (tracks_items .properties (fun _ => tracks_property hg)).bind fun s x x' hx => .skip "\x7d" rfl fun e he => .value ?_)
  refine ⟨⟨by simp [Expr.unplaced, hx.same], ?_⟩, ?_⟩
  · exact (Head.cons ht.plain (hx.part.concat he.plain)).congr (by simp) (by simp) fun _ => rfl
  · rw [Token.after, Token.after_concat]
    exact he.ends (by decide)

theorem tracks_primary (hg : g.Agree bad) : Tracks bad u false (ChainRead bad u) (primary g) (primary g) := by
  -- A token of a kind that an expression can end with, or a word for a value.
  have hkind {k : TokenKind} {t : Token} (hl : t.Lexed) (ht : t.kind = k) (hk : k ∈ [.number, .string, .ident]) :
      t.isUpdate = false ∧ EndsExpr (some t) := by
    refine ⟨plain_of_kind hl ht (by rintro rfl; simp at hk), t, rfl, ?_⟩
    simp only [List.mem_cons, List.not_mem_nil, or_false] at hk
    rcases hk with rfl | rfl | rfl <;> simp [Scan.endsOperand, ht]
  have hword {t : Token} (hl : t.Lexed) (ht : t.text ∈ ["this", "null", "true", "false"]) :=
    hkind hl (hl.word ht) (by decide)
  refine .production (.located fun pos pos' => .choice (.cons ?_ (.cons ?_ (.cons ?_ (.cons ?_ (.cons ?_ (.cons ?_
    (.cons ?_ (.cons ?_ (.cons ?_ (.cons ?_ .nil)))))))))))
  · refine (hg.function u).map fun s x x' hx _ => ?_
    exact ⟨⟨by simp [Expr.unplaced, hx.1.same], hx.1.head.congr (by simp) (by simp) fun _ => rfl⟩, hx.2⟩
  · exact (tracks_arrayLit hg).mono fun _ _ _ h _ => h
  · exact (tracks_objectLit hg).mono fun _ _ _ h _ => h
  · refine (Tracks.kind .number).map ?_
    rintro _ t t' ⟨rfl, ht, hl, ht'⟩ hpos
    obtain ⟨hv, hf⟩ := checkNumber_at t.text pos pos'
    obtain ⟨hp, he⟩ := hkind hl ht (by decide)
    exact .leaf hp he (by simp [Expr.unplaced, ht'.2, hv]) (by simpa [ht'.2] using hf) fun _ => rfl
  · refine (Tracks.kind .string).map ?_
    rintro _ t t' ⟨rfl, ht, hl, ht'⟩ hpos
    obtain ⟨hv, hf⟩ := checkString_at t.text pos pos'
    obtain ⟨hp, he⟩ := hkind hl ht (by decide)
    exact .leaf hp he (by simp [Expr.unplaced, ht'.2, hv]) (by simpa [ht'.2] using hf) fun _ => rfl
  · refine (Tracks.oneOf ["true", "false"]).map ?_
    rintro _ t t' ⟨rfl, ht, hl, ht'⟩ hpos
    obtain ⟨hp, he⟩ := hword hl (List.mem_cons_of_mem _ (List.mem_cons_of_mem _ ht))
    exact .leaf hp he (by simp [Expr.unplaced, ht'.2]) id fun _ => rfl
  · refine (Tracks.text "null").map ?_
    rintro _ t t' ⟨rfl, ht, hl, -⟩ -
    obtain ⟨hp, he⟩ := hword hl (by simp [ht])
    exact .leaf hp he rfl id fun _ => rfl
  · refine (Tracks.text "this").map ?_
    rintro _ t t' ⟨rfl, ht, hl, -⟩ -
    obtain ⟨hp, he⟩ := hword hl (by simp [ht])
    exact .leaf hp he rfl id fun _ => rfl
  · refine (Tracks.kind .ident).map ?_
    rintro _ t t' ⟨rfl, ht, hl, ht'⟩ hpos
    obtain ⟨hp, he⟩ := hkind hl ht (by decide)
    refine ⟨⟨by simp [Expr.unplaced, ht'.2], ?_⟩, he⟩
    have hword : Head bad u [t] (isReserved t.text = false) (isReserved t.text = false)
        fun _ => { names := [(t.pos, t.text)] } :=
      ⟨nofun, fun h _ => h, fun _ _ _ _ _ => .plain hp .nil, fun _ => .cons (.word ht) .nil⟩
    exact hword.congr (by simp) (by simp [ht'.2]) fun _ => by simp [hpos t rfl]
  · refine .word "(" rfl fun t ht => (Tracks.item (tracks_expression hg)).bind fun s x x' hx =>
      .skip ")" rfl fun e he => .value fun _ => ?_
    refine ⟨⟨hx.same, ?_⟩, ?_⟩
    · have hclose := hx.head.append (Part.token he.plain)
      exact (Head.paren ht.text hclose).congr (by simp) (by simp) fun _ => (Trail.append_nil _).symm
    · rw [Token.after, Token.after_concat]
      exact he.ends (by decide)

/-! ## Chains of members and calls -/

/-- Two suffixes and the tokens that they are read from, which carry marks of their own. -/
structure SuffixMarks (bad : Position) (u : Option Token) (s : List Token) (ok ok' : Prop) (a : Trail)
    (k k' : Suffix) : Prop where
  part : Part bad u s ok ok' a
  ends : EndsExpr (Token.after u s)
  same {e e' : Expr} (h : e'.unplaced = e.unplaced) : (k' e').value.unplaced = (k e).value.unplaced
  fault {e : Expr} (h : (k e).fault = none) : ok
  fault' (h : ok') (e : Expr) : (k' e).fault = none
  trail (e : Expr) (l : Bool) : (k e).value.trail l = e.trail l ++ a

def SuffixRead (bad : Position) (u : Option Token) (s : List Token) (k k' : Suffix) : Prop :=
  ∃ ok ok' a, SuffixMarks bad u s ok ok' a k k'

theorem tracks_memberSuffix (hg : g.Agree bad) :
    Tracks bad u false (SuffixRead bad u) (memberSuffix g) (memberSuffix g) := by
  refine .production (.position fun pos pos' => .choice (.cons ?_ (.cons ?_ .nil)))
  · refine .word "." rfl fun t ht => (Tracks.item (.kind .ident)).map ?_
    rintro _ n n' ⟨rfl, hn, hl, hn'⟩
    refine ⟨True, True, {}, Part.cons ht.plain (Part.token (plain_of_kind hl hn nofun)), ⟨n, rfl, .inl hn⟩, ?_, ?_,
      ?_, ?_⟩
    · intro e e' h
      simp [Expr.unplaced, h, hn'.2]
    · simp
    · simp
    · simp
  · refine .word "[" rfl fun t ht => (Tracks.item (tracks_expression hg)).bind fun s x x' hx =>
      .skip "]" rfl fun e he => .value ?_
    refine ⟨_, _, _, Part.cons ht.plain (hx.head.part.concat he.plain), ?_, ?_, ?_, ?_, ?_⟩
    · rw [Token.after, Token.after_concat]
      exact he.ends (by decide)
    · intro e e' h
      simp [Expr.unplaced, h, hx.same]
    · simp
    · simp
    · simp

def ArgumentsRead (bad : Position) (u : Option Token) (s : List Token) (x x' : Checked (List Expr)) : Prop :=
  Carries unplacedExprs (exprTrail false) bad u s x x' ∧ EndsExpr (Token.after u s)

theorem tracks_arguments (hg : g.Agree bad) :
    Tracks bad u false (fun s x x' => ArgumentsRead bad u s x.2 x'.2) (arguments g) (arguments g) := by
  refine .production (.position fun pos pos' => .word "(" rfl fun t ht =>
    (Tracks.item (tracks_items .exprs (fun _ => tracks_argument hg))).bind fun s x x' hx => .skip ")" rfl fun e he => .value ?_)
  refine ⟨⟨hx.same, Part.cons ht.plain (hx.part.concat he.plain)⟩, ?_⟩
  rw [Token.after, Token.after_concat]
  exact he.ends (by decide)

/-- Suffixes carry on with the expression in front of them. -/
theorem reads_applySuffixes {x x' : Checked Expr} {ks ks' : List Suffix} (hx : ChainRead bad u s1 x x')
    (hk : Tracks.Each (SuffixRead bad) (Token.after u s1) s2 ks ks') :
    ChainRead bad u (s1 ++ s2) (applySuffixes x ks) (applySuffixes x' ks') := by
  induction ks generalizing x x' s1 s2 ks' with
  | nil =>
    cases hk
    rw [List.append_nil]
    exact hx
  | cons k ks ih =>
    cases hk with
    | @cons _ a b _ k' _ ks' h hs =>
      obtain ⟨ok, ok', tr, hk⟩ := h
      rw [← Token.after_append] at hs
      rw [← List.append_assoc]
      have hstep : ChainRead bad u (s1 ++ a) (x >>= k) (x' >>= k') := by
        refine ⟨⟨hk.same hx.1.same, (hx.1.head.append hk.part).congr ?_ ?_ fun l => hk.trail _ l⟩, ?_⟩
        · simpa using fun hx hk' => ⟨hx, hk.fault hk'⟩
        · simpa using fun hx hk' => ⟨hx, hk.fault' hk' _⟩
        · rw [Token.after_append]
          exact hk.ends
      show ChainRead bad u _ (applySuffixes (x >>= k) ks) (applySuffixes (x' >>= k') ks')
      exact ih hstep hs

theorem tracks_newTarget (hg : g.Agree bad) : Tracks bad u false (ChainRead bad u) (newTarget g) (newTarget g) := by
  refine .production (.position fun pos pos' => .word "new" rfl fun t ht =>
    (Tracks.item (hg.chainHead _)).bind fun s x x' hx =>
    (Tracks.many (fun _ => tracks_memberSuffix hg)).bind fun s2 ks ks' hks =>
      (Tracks.optional (tracks_arguments hg)).map fun s3 o o' ho => ?_)
  have hchain := reads_applySuffixes hx hks
  rw [← Token.after_append] at ho
  rw [← List.append_assoc]
  cases ho with
  | none =>
    rw [List.append_nil]
    refine ⟨⟨by simp [Expr.unplaced, hchain.1.same, unplacedExprs], ?_⟩, hchain.2⟩
    exact (Head.cons ht.plain hchain.1.head.part).congr (by simp) (by simp) fun _ => by simp
  | some ha =>
    refine ⟨⟨by simp [Expr.unplaced, hchain.1.same, ha.1.same], ?_⟩, ?_⟩
    · exact (Head.cons ht.plain (hchain.1.head.part.append ha.1.part)).congr (by simp) (by simp) fun _ => by simp
    · rw [Token.after, Token.after_append]
      exact ha.2

theorem tracks_chainHeadRule (hg : g.Agree bad) :
    Tracks bad u false (ChainRead bad u) (chainHeadRule g) (chainHeadRule g) :=
  .production (.choice (.cons (tracks_newTarget hg) (.cons (tracks_primary hg) .nil)))

theorem tracks_suffix (hg : g.Agree bad) : Tracks bad u false (SuffixRead bad u) (suffix g) (suffix g) := by
  refine .production (.choice (.cons (tracks_memberSuffix hg) (.cons ?_ .nil)))
  refine (tracks_arguments hg).map fun s x x' hx => ⟨_, _, _, hx.1.part, hx.2, ?_, ?_, ?_, ?_⟩
  · intro e e' h
    simp [Expr.unplaced, h, hx.1.same]
  · simp
  · simp
  · simp

theorem tracks_callChain (hg : g.Agree bad) : Tracks bad u false (ChainRead bad u) (callChain g) (callChain g) :=
  .production ((hg.chainHead u).bind fun _ _ _ hx => (Tracks.many (fun _ => tracks_suffix hg)).map fun _ _ _ hks =>
    reads_applySuffixes hx hks)

/-! ## Operators -/

/-- An operator that is one of the update operators. -/
theorem isUpdate_of_mem (ht : t.text ∈ ["++", "--"]) : t.isUpdate = true := by
  simpa [Token.isUpdate] using ht

theorem tracks_postfixRule (hg : g.Agree bad) :
    Tracks bad u false (ExprRead bad u) (postfixRule g) (postfixRule g) := by
  refine .production (.position fun pos pos' => (tracks_callChain hg).bind fun s x x' hx =>
    (Tracks.optional (.oneOf ["++", "--"])).map fun s2 o o' ho => ?_)
  cases ho with
  | none => simpa using hx.1
  | some ht =>
    obtain ⟨rfl, ht, -, ht'⟩ := ht
    refine ⟨by simp [Expr.unplaced, hx.1.same, ht'.2], ?_⟩
    exact (hx.1.head.append (.update (isUpdate_of_mem ht) hx.2)).congr (by simp) (by simp) fun _ => by simp

theorem tracks_prefixRule (hg : g.Agree bad) : Tracks bad u false (ExprRead bad u) (prefixRule g) (prefixRule g) := by
  refine .production (.position fun pos pos' => (Tracks.oneOf _).bind ?_)
  rintro _ t t' ⟨rfl, -, -, ht'⟩
  refine (Tracks.item (hg.unary _)).map fun s x x' hx => ?_
  by_cases ht : t.text = "++" ∨ t.text = "--"
  · refine ⟨by simp [Expr.unplaced, hx.same, ht'.2, ht], ?_⟩
    refine (Head.update (by simpa [Token.isUpdate] using ht) hx.head.part).congr (by simp) (by simp) fun _ => ?_
    simp [Trail.mark, ht]
  · refine ⟨by simp [Expr.unplaced, hx.same, ht'.2, ht], ?_⟩
    refine (Head.cons (by simpa [Token.isUpdate] using ht) hx.head.part).congr (by simp) (by simp) fun _ => ?_
    simp [ht]

theorem tracks_unaryRule (hg : g.Agree bad) : Tracks bad u false (ExprRead bad u) (unaryRule g) (unaryRule g) :=
  .production (.choice (.cons (tracks_prefixRule hg) (.cons (tracks_postfixRule hg) .nil)))

/-- Two operators with their right operands. -/
abbrev LinkRead := Carries Link.unplaced fun k => k.right.trail false

theorem tracks_link (hg : g.Agree bad) : Tracks bad u false (LinkRead bad u) (link g) (link g) := by
  have hplain : ∀ x ∈ BinaryOp.all.map BinaryOp.symbol, (x == "++" || x == "--") = false := by decide
  refine .production (.position fun pos pos' => (Tracks.oneOf _).bind ?_)
  rintro _ t t' ⟨rfl, ht, -, ht'⟩
  refine (Tracks.item (hg.unary _)).map fun s x x' hx => ⟨by simp [Link.unplaced, hx.same, ht'.2], ?_⟩
  exact (Part.cons (hplain _ ht) hx.head.part).congr (by simp) (by simp)

theorem tracks_binary (hg : g.Agree bad) : Tracks bad u false (ExprRead bad u) (binary g) (binary g) := by
  have hlinks : Listing Link.unplaced (fun k => k.right.trail false) (List.map Link.unplaced) Link.trail :=
    ⟨fun h hs => by simp [h, hs], rfl, fun _ _ => rfl⟩
  refine .production ((hg.unary u).bind fun s x x' hx =>
    (Tracks.many (fun _ => tracks_link hg)).map fun s2 ks ks' hks => ?_)
  have hks := Carries.list hlinks hks
  refine ⟨by simp [Link.unplaced_tree, hx.same, hks.same], ?_⟩
  exact (hx.head.append hks.part).congr (by simp) (by simp) fun l => Link.trail_tree _ _ l

/-- The two values of conditional expressions. -/
structure BranchesRead (bad : Position) (u : Option Token) (s : List Token) (a a' : Checked Expr × Checked Expr) :
    Prop where
  thenValue : a'.1.value.unplaced = a.1.value.unplaced
  elseValue : a'.2.value.unplaced = a.2.value.unplaced
  part : Part bad u s (a.1.fault = none ∧ a.2.fault = none) (a'.1.fault = none ∧ a'.2.fault = none)
    (a.1.value.trail false ++ a.2.value.trail false)

theorem tracks_conditional (hg : g.Agree bad) :
    Tracks bad u false (ExprRead bad u) (conditional g) (conditional g) := by
  refine .production (.position fun pos pos' => (tracks_binary hg).bind fun s x x' hx =>
    (Tracks.optional (V := BranchesRead bad (Token.after u s)) (.production (.word "?" rfl fun t ht =>
      (Tracks.item (hg.assignment _)).bind fun s a a' ha => .skip ":" rfl fun e he =>
        (Tracks.item (hg.assignment _)).map fun s2 b b' hb => ⟨ha.same, hb.same, ?_⟩))).map fun s2 o o' ho => ?_)
  · exact Part.cons ht.plain (ha.head.part.append (.cons he.plain hb.head.part))
  · cases ho with
    | none => simpa using hx
    | some h =>
      refine ⟨by simp [Expr.unplaced, hx.same, h.thenValue, h.elseValue], ?_⟩
      exact (hx.head.append h.part).congr (by simp) (by simp) fun _ => by simp

/-- Two assignment operators with the values behind them. -/
def AssignedRead (bad : Position) (u : Option Token) (s : List Token) (a a' : Token × Checked Expr) : Prop :=
  a'.1.text = a.1.text ∧ Carries Expr.unplaced (Expr.trail false) bad u s a.2 a'.2

theorem tracks_assignmentRule (hg : g.Agree bad) :
    Tracks bad u false (ExprRead bad u) (assignmentRule g) (assignmentRule g) := by
  have hplain : ∀ x ∈ assignSymbols, (x == "++" || x == "--") = false := by decide
  refine .production (.position fun pos pos' => (tracks_conditional hg).bind fun s x x' hx =>
    (Tracks.optional (V := AssignedRead bad (Token.after u s)) (.production ((Tracks.oneOf assignSymbols).bind ?_))).map
      fun s2 o o' ho => ?_)
  · rintro _ t t' ⟨rfl, ht, -, ht'⟩
    exact (Tracks.item (hg.assignment _)).map fun s y y' hy => ⟨ht'.2, hy.carries.cons (hplain _ ht)⟩
  · cases ho with
    | none => simpa using hx
    | some h =>
      refine ⟨by simp [Expr.unplaced, hx.same, h.1, h.2.same], ?_⟩
      exact (hx.head.append h.2.part).congr (by simp) (by simp) fun _ => by simp

end Grammar

end ScriptOptimizer
