import ScriptOptimizer.Token.Basic

/-!
# Matchers

A matcher reads tokens from a cursor. It matches, does not match, or fails at a token. Choices are
ordered: the first alternative that matches wins and is never reconsidered. To report the most helpful
failure, the context remembers the failure that lies deepest in the tokens; a choice gives up at once
when an alternative fails far behind the point where the choice began.
-/

namespace ScriptOptimizer

/-- The state of matching: the tokens from the cursor on, the token in front of it, how many tokens
were consumed, and the deepest failure with its depth. -/
structure Context where
  rest : List Token
  before : Option Token := none
  cursor : Nat := 0
  deepest : Option Token := none
  depth : Nat := 0

/-- What became of matching: a value, no match, or a failure at a token. -/
inductive Outcome (α : Type) where
  | matched (value : α)
  | unmatched
  | failed (token : Token)

namespace Context

/-- The token at the cursor. -/
def here (c : Context) : Token := c.rest.headD default

/-- Records a failure at least as deep as the deepest so far. -/
def note (c : Context) (token : Token) : Context :=
  if c.depth ≤ c.cursor then { c with deepest := some token, depth := c.cursor } else c

/-- Goes on from a branch. -/
def accept (c branch : Context) : Context :=
  let c := { c with rest := branch.rest, before := branch.before, cursor := branch.cursor }
  if c.depth ≤ branch.depth then { c with deepest := branch.deepest, depth := branch.depth } else c

/-- Records the failure of a branch. -/
def noteBranch (c branch : Context) (token : Token) : Context :=
  if c.depth < branch.depth then { c with deepest := branch.deepest, depth := branch.depth }
  else if c.depth ≤ branch.cursor then
    { c with deepest := some token, depth := max branch.cursor branch.depth }
  else c

/-- How many tokens behind its start a branch may fail and still be passed over. -/
def lookahead : Nat := 1024

/-- Whether a branch failed too far behind its start to be passed over. -/
def isFinal (c branch : Context) : Bool := c.cursor + lookahead < branch.cursor

end Context

/-- A reader of tokens. -/
def Matcher (α : Type) := Context → Outcome α × Context

namespace Matcher

/-- Matches without reading. -/
def value (a : α) : Matcher α := fun c => (.matched a, c)

/-- Reads with one matcher, then with the next. -/
def andThen (p : Matcher α) (f : α → Matcher β) : Matcher β := fun c =>
  match p c with
  | (.matched a, c) => f a c
  | (.unmatched, c) => (.unmatched, c)
  | (.failed t, c) => (.failed t, c)

instance : Monad Matcher where
  pure := value
  bind := andThen

/-- Reads the token at the cursor if it has a property. -/
def token (fits : Token → Bool) : Matcher Token := fun c =>
  match c.rest with
  | t :: rest =>
    if fits t then (.matched t, { c with rest, before := some t, cursor := c.cursor + 1 })
    else (.unmatched, c)
  | [] => (.unmatched, c)

/-- Reads a token with a given text, whatever its kind. -/
def text (s : String) : Matcher Token := token (·.text == s)

/-- Reads a token of a given kind. -/
def kind (k : TokenKind) : Matcher Token := token (·.kind == k)

/-- A later item of a sequence: where it does not match, the sequence fails at the cursor. -/
def item (p : Matcher α) : Matcher α := fun c =>
  match p c with
  | (.unmatched, c) => (.failed c.here, c)
  | r => r

/-- A production of the grammar, which records its failure. -/
def production (p : Matcher α) : Matcher α := fun c =>
  match p c with
  | (.failed t, c) => (.failed t, c.note t)
  | r => r

/-- The position of the token at the cursor. -/
def position : Matcher Position := fun c => (.matched c.here.pos, c)

/-- The token in front of the cursor. -/
def previous : Matcher (Option Token) := fun c => (.matched c.before, c)

/-- Reads with a matcher if it matches. -/
def optional (p : Matcher α) : Matcher (Option α) := fun c =>
  match p c with
  | (.matched a, b) => (.matched (some a), c.accept b)
  | (.unmatched, b) => (.matched none, c.accept b)
  | (.failed t, b) =>
    let c := (c.note t).noteBranch b t
    if c.isFinal b then (.failed t, c.accept b) else (.matched none, c)

/-- Reads with a matcher as often as it matches, at most once for each of some tokens. -/
def manyWith (p : Matcher α) : List Token → Matcher (List α)
  | [] => value []
  | _ :: fuel => fun c =>
    match p c with
    | (.matched a, b) =>
      match manyWith p fuel (c.accept b) with
      | (.matched as, c) => (.matched (a :: as), c)
      | r => r
    | (.unmatched, b) => (.matched [], c.accept b)
    | (.failed t, b) =>
      let c := (c.note t).noteBranch b t
      if c.isFinal b then (.failed t, c.accept b) else (.matched [], c)

/-- Reads with a matcher as often as it matches. Each match takes a token, so the tokens that are left
bound the number of matches; one more try finds that there is no further match. -/
def many (p : Matcher α) : Matcher (List α) := fun c => manyWith p (c.here :: c.rest) c

/-- The rest of a choice, given the failure that lies farthest so far and how far it lies. -/
def choiceFrom (far : Option Token) (farthest : Nat) : List (Matcher α) → Matcher α
  | [] => fun c =>
    match far with
    | some t => (.failed t, c.note t)
    | none => (.unmatched, c)
  | p :: ps => fun c =>
    match p c with
    | (.matched a, b) => (.matched a, c.accept b)
    | (.unmatched, _) => choiceFrom far farthest ps c
    | (.failed t, b) =>
      let c := c.noteBranch b t
      if c.isFinal b then (.failed t, c.accept b)
      else if farthest ≤ b.cursor then choiceFrom (some t) b.cursor ps c
      else choiceFrom far farthest ps c

/-- The first alternative that matches. -/
def choice (ps : List (Matcher α)) : Matcher α := choiceFrom none 0 ps

/-- One of several texts. -/
def oneOf (texts : List String) : Matcher Token := choice (texts.map text)

/-- A separator and an item, as often as they match. -/
def more (separator : String) (p : Matcher α) : Matcher (List α) :=
  many do let _ ← text separator; item p

/-- One or more items between separators. -/
def list (separator : String) (p : Matcher α) : Matcher (List α) := do
  let first ← p
  let later ← more separator p
  return first :: later

/-- Matches a whole list of tokens, which ends with the end token. -/
def run (p : Matcher α) (tokens : List Token) : Except Token α :=
  match p { rest := tokens } with
  | (.failed t, _) => .error t
  | (.unmatched, c) => .error c.here
  | (.matched a, c) =>
    if c.here.kind = .eof then .ok a
    else if c.depth ≤ c.cursor then .error c.here
    else .error (c.deepest.getD c.here)

end Matcher

end ScriptOptimizer
