import Mathlib.Data.List.Forall2
import ScriptOptimizer.Grammar.Matcher
import ScriptOptimizer.Proofs.TokenMarks

/-!
# Two runs of a matcher

A matcher looks at the kinds and texts of tokens only, so on tokens that differ in their positions it does
the same: it matches both, neither, or fails on both. What it matches is related to the tokens that it
reads. The combinators pass such relations on.
-/

namespace ScriptOptimizer

namespace Token

/-- Tokens that differ in their positions at most. -/
def Same (t t' : Token) : Prop := t'.kind = t.kind ∧ t'.text = t.text

/-- The text of a token fits its kind as far as the grammar relies on it. -/
structure Lexed (t : Token) : Prop where
  punct : t.text ∈ ["++", "--", ")", "]", "\x7d"] → t.kind = .punct
  word : t.text ∈ ["this", "null", "true", "false"] → t.kind = .ident

theorem Lexed.isUpdate_eq_false {t : Token} (h : t.Lexed) (hk : t.kind ≠ .punct) : t.isUpdate = false := by
  rw [isUpdate, Bool.eq_false_iff]
  intro hu
  refine hk (h.punct ?_)
  rcases Bool.or_eq_true_iff.mp hu with hu | hu
  · simp [eq_of_beq hu]
  · simp [eq_of_beq hu]

/-- Tokens behind `u` and `u'` that differ in their positions, but not in whether a line break stands in
front of them unless they stand at the place `bad`. -/
inductive Alike (bad : Position) : Option Token → Option Token → List Token → List Token → Prop where
  | nil {u u' : Option Token} : Alike bad u u' [] []
  | cons {u u' : Option Token} {t t' : Token} {ts ts' : List Token} (ht : t.Same t') (hx : t.Lexed)
      (hl : t.pos ≠ bad → ∀ v ∈ u, ∀ v' ∈ u', v'.lineBreakBetween t' = v.lineBreakBetween t)
      (hs : Alike bad (some t) (some t') ts ts') : Alike bad u u' (t :: ts) (t' :: ts')

theorem Alike.length_eq {bad : Position} {u u' : Option Token} {ts ts' : List Token} (h : Alike bad u u' ts ts') :
    ts'.length = ts.length := by
  induction h with
  | nil => rfl
  | cons _ _ _ _ ih => simp [ih]

end Token

open Token (Alike)

/-- What matching depends on. -/
def Context.place (c : Context) : List Token × Option Token × Nat := (c.rest, c.before, c.cursor)

/-- Two runs that have read alike tokens and have alike ones ahead. -/
structure Follows (bad : Position) (c c' : Context) : Prop where
  rest : Alike bad c.before c'.before c.rest c'.rest
  before : Option.Rel Token.Same c.before c'.before
  cursor : c'.cursor = c.cursor

theorem Follows.of_place {bad : Position} {c c' d d' : Context} (h : Follows bad c c') (hd : d.place = c.place)
    (hd' : d'.place = c'.place) : Follows bad d d' := by
  obtain ⟨hr, hb, hc⟩ : d.rest = c.rest ∧ d.before = c.before ∧ d.cursor = c.cursor := by simpa [Context.place] using hd
  obtain ⟨hr', hb', hc'⟩ : d'.rest = c'.rest ∧ d'.before = c'.before ∧ d'.cursor = c'.cursor := by
    simpa [Context.place] using hd'
  refine ⟨?_, ?_, ?_⟩
  · rw [hr, hb, hr', hb']
    exact h.rest
  · rw [hb, hb']
    exact h.before
  · rw [hc, hc']
    exact h.cursor

namespace Context

theorem place_note (c : Context) (t : Token) : (c.note t).place = c.place := by
  unfold note
  split <;> rfl

theorem place_accept (c b : Context) : (c.accept b).place = b.place := by
  unfold accept
  dsimp only
  split <;> rfl

theorem place_noteBranch (c b : Context) (t : Token) : (c.noteBranch b t).place = c.place := by
  unfold noteBranch
  split
  · rfl
  · split <;> rfl

end Context

namespace Matcher

variable {α β : Type} {bad : Position} {u : Option Token} {sure : Bool}

/-- How two runs go on, the first of which is at `c`. A match relates the values with the tokens read; where
there is none, no tokens are read. -/
inductive Goes (bad : Position) (sure : Bool) (V : List Token → α → α → Prop) (c : Context) :
    Outcome α × Context → Outcome α × Context → Prop where
  | matched {a a' : α} {d d' : Context} (s : List Token) (hd : Follows bad d d') (hr : c.rest = s ++ d.rest)
      (hb : d.before = Token.after c.before s) (hv : V s a a') : Goes bad sure V c (.matched a, d) (.matched a', d')
  | unmatched {d d' : Context} (hs : sure = false) (hd : Follows bad d d') (hr : d.rest = c.rest)
      (hb : d.before = c.before) : Goes bad sure V c (.unmatched, d) (.unmatched, d')
  | failed {t t' : Token} {d d' : Context} (h : d'.cursor = d.cursor) :
      Goes bad sure V c (.failed t, d) (.failed t', d')

/-- Two matchers that do the same behind the token `u` on tokens that are alike; they always match or fail
if `sure` is set. -/
def Tracks (bad : Position) (u : Option Token) (sure : Bool) (V : List Token → α → α → Prop)
    (p p' : Matcher α) : Prop :=
  ∀ ⦃c c'⦄, Follows bad c c' → c.before = u → Goes bad sure V c (p c) (p' c')

namespace Goes

variable {V V' : List Token → α → α → Prop} {c c' d d' : Context} {r r' : Outcome α × Context}

theorem mono (h : Goes bad sure V c r r') (hv : ∀ s a a', V s a a' → V' s a a') : Goes bad sure V' c r r' := by
  cases h with
  | matched s hd hr hb h => exact .matched s hd hr hb (hv _ _ _ h)
  | unmatched hs hd hr hb => exact .unmatched hs hd hr hb
  | failed h => exact .failed h

theorem of_place (h : Goes bad sure V d r r') (hd : d.place = c.place) : Goes bad sure V c r r' := by
  obtain ⟨hrest, hbefore, -⟩ : d.rest = c.rest ∧ d.before = c.before ∧ _ := by simpa [Context.place] using hd
  cases h with
  | matched s hd hr hb h => exact .matched s hd (hrest ▸ hr) (hbefore ▸ hb) h
  | unmatched hs hd hr hb => exact .unmatched hs hd (hr.trans hrest) (hb.trans hbefore)
  | failed h => exact .failed h

/-- Goes on from a branch that matches. -/
theorem accept {a a' : α} (s : List Token) (hd : Follows bad d d') (hr : c.rest = s ++ d.rest)
    (hb : d.before = Token.after c.before s) (hv : V s a a') :
    Goes bad sure V c (.matched a, c.accept d) (.matched a', c'.accept d') := by
  obtain ⟨hrest, hbefore, -⟩ : (c.accept d).rest = d.rest ∧ (c.accept d).before = d.before ∧ _ := by
    simpa [Context.place] using c.place_accept d
  exact .matched s (hd.of_place (c.place_accept d) (c'.place_accept d')) (hrest ▸ hr) (hbefore.trans hb) hv

/-- Passes over a branch that fails, or fails with it. -/
theorem passOver (hc : Follows bad c c') (hd : d'.cursor = d.cursor) {e e' : Context} (he : e.place = c.place)
    (he' : e'.place = c'.place) (h : Follows bad e e' → Goes bad sure V e r r') {t t' : Token} :
    Goes bad sure V c (if e.isFinal d then (.failed t, e.accept d) else r)
      (if e'.isFinal d' then (.failed t', e'.accept d') else r') := by
  have hfollows := hc.of_place he he'
  have hfinal : e'.isFinal d' = e.isFinal d := by rw [Context.isFinal, Context.isFinal, hfollows.cursor, hd]
  have hcursor (x y : Context) : (x.accept y).cursor = y.cursor := congrArg (·.2.2) (x.place_accept y)
  rw [hfinal]
  split
  · refine .failed ?_
    rw [hcursor, hcursor, hd]
  · exact (h hfollows).of_place he

end Goes

namespace Tracks

variable {V V' : List Token → α → α → Prop} {W : List Token → β → β → Prop} {p p' : Matcher α}

theorem mono (hp : Tracks bad u sure V p p') (h : ∀ s a a', V s a a' → V' s a a') : Tracks bad u sure V' p p' :=
  fun _ _ hc hu => (hp hc hu).mono h

theorem value {a a' : α} (h : V [] a a') : Tracks bad u true V (pure a) (pure a') :=
  fun _ _ hc _ => .matched [] hc rfl rfl h

theorem bind {f f' : α → Matcher β} (hp : Tracks bad u sure V p p')
    (hf : ∀ s a a', V s a a' → Tracks bad (Token.after u s) true (fun s' => W (s ++ s')) (f a) (f' a')) :
    Tracks bad u sure W (p >>= f) (p' >>= f') := by
  intro c c' hc hu
  have hg := hp hc hu
  show Goes bad sure W c (andThen p f c) (andThen p' f' c')
  unfold andThen
  generalize p c = r, p' c' = r' at hg
  cases hg with
  | @matched a a' d d' s hd hr hb hv =>
    have hg := hf _ _ _ hv hd (hu ▸ hb)
    dsimp only
    generalize f a d = r, f' a' d' = r' at hg
    cases hg with
    | matched s' he hr' hb' hw =>
      refine .matched (s ++ s') he ?_ ?_ hw
      · rw [hr, hr', List.append_assoc]
      · rw [hb', hb, Token.after_append]
    | unmatched hs => cases hs
    | failed h => exact .failed h
  | unmatched hs hd hr hb => exact .unmatched hs hd hr hb
  | failed h => exact .failed h

theorem map {f f' : α → β} (hp : Tracks bad u sure V p p') (h : ∀ s a a', V s a a' → W s (f a) (f' a')) :
    Tracks bad u sure W (p >>= fun a => pure (f a)) (p' >>= fun a => pure (f' a)) :=
  hp.bind fun s a a' hv => value (by simpa using h s a a' hv)

/-- The position read is that of the first token read behind it. -/
theorem located {f f' : Position → Matcher β}
    (hf : ∀ x x', Tracks bad u sure (fun s b b' => (∀ t ∈ s.head?, t.pos = x) → W s b b') (f x) (f' x')) :
    Tracks bad u sure W (Matcher.position >>= f) (Matcher.position >>= f') := by
  intro c c' hc hu
  have hg := hf c.here.pos c'.here.pos hc hu
  show Goes bad sure _ c (f c.here.pos c) (f' c'.here.pos c')
  generalize f c.here.pos c = r, f' c'.here.pos c' = r' at hg
  cases hg with
  | matched s hd hr hb hv =>
    refine .matched s hd hr hb (hv ?_)
    cases s with
    | nil => simp
    | cons t s => simp [Context.here, hr]
  | unmatched hs hd hr hb => exact .unmatched hs hd hr hb
  | failed h => exact .failed h

theorem position {f f' : Position → Matcher β} (hf : ∀ x x', Tracks bad u sure W (f x) (f' x')) :
    Tracks bad u sure W (Matcher.position >>= f) (Matcher.position >>= f') :=
  located fun x x' => (hf x x').mono fun _ _ _ h _ => h

/-- What is known of a token that was read. -/
def IsToken (P : Token → Prop) (s : List Token) (t t' : Token) : Prop := s = [t] ∧ P t ∧ t.Lexed ∧ t.Same t'

theorem token {fits : Token → Bool} (h : ∀ t t' : Token, t.Same t' → fits t' = fits t) :
    Tracks bad u false (IsToken fun t => fits t = true) (token fits) (token fits) := by
  intro c c' hc hu
  unfold Matcher.token
  have hrest := hc.rest
  cases hr : c.rest with
  | nil =>
    rw [hr] at hrest
    generalize hr' : c'.rest = rest' at hrest
    cases hrest
    exact .unmatched rfl hc rfl rfl
  | cons t ts =>
    rw [hr] at hrest
    generalize hr' : c'.rest = rest' at hrest
    cases hrest with
    | @cons _ _ _ t' _ ts' ht hx hl hs =>
      simp only [h t t' ht]
      split
      · next hfits => exact .matched [t] ⟨hs, .some ht, congrArg (· + 1) hc.cursor⟩ hr rfl ⟨rfl, hfits, hx, ht⟩
      · exact .unmatched rfl hc rfl rfl

theorem text (x : String) : Tracks bad u false (IsToken (·.text = x)) (text x) (text x) :=
  (token fun t t' h => by rw [h.2]).mono fun _ _ _ h => ⟨h.1, eq_of_beq h.2.1, h.2.2⟩

theorem kind (k : TokenKind) : Tracks bad u false (IsToken (·.kind = k)) (kind k) (kind k) :=
  (token fun t t' h => by rw [h.1]).mono fun _ _ _ h => ⟨h.1, eq_of_beq h.2.1, h.2.2⟩

theorem item (hp : Tracks bad u sure V p p') : Tracks bad u true V (item p) (item p') := by
  intro c c' hc hu
  have hg := hp hc hu
  unfold Matcher.item
  generalize p c = r, p' c' = r' at hg
  cases hg with
  | matched s hd hr hb hv => exact .matched s hd hr hb hv
  | unmatched hs hd hr hb => exact .failed hd.cursor
  | failed h => exact .failed h

theorem production (hp : Tracks bad u sure V p p') : Tracks bad u sure V (production p) (production p') := by
  intro c c' hc hu
  have hg := hp hc hu
  unfold Matcher.production
  generalize p c = r, p' c' = r' at hg
  cases hg with
  | matched s hd hr hb hv => exact .matched s hd hr hb hv
  | unmatched hs hd hr hb => exact .unmatched hs hd hr hb
  | @failed t t' d d' h =>
    have hcursor (x : Context) (y : Token) : (x.note y).cursor = x.cursor := congrArg (·.2.2) (x.place_note y)
    refine .failed ?_
    rw [hcursor, hcursor, h]

/-- What is known of a part that may be missing. -/
inductive OrNone (V : List Token → α → α → Prop) : List Token → Option α → Option α → Prop where
  | none : OrNone V [] none none
  | some {s : List Token} {a a' : α} (h : V s a a') : OrNone V s (some a) (some a')

theorem optional (hp : Tracks bad u sure V p p') : Tracks bad u true (OrNone V) (optional p) (optional p') := by
  intro c c' hc hu
  have hg := hp hc hu
  unfold Matcher.optional
  generalize p c = r, p' c' = r' at hg
  cases hg with
  | matched s hd hr hb hv => exact .accept s hd hr hb (.some hv)
  | unmatched hs hd hr hb => exact .accept [] hd hr.symm hb .none
  | @failed t t' d d' h =>
    refine .passOver hc h (((c.note t).place_noteBranch d t).trans (c.place_note t))
      (((c'.note t').place_noteBranch d' t').trans (c'.place_note t')) fun he => ?_
    exact .matched [] he rfl rfl .none

/-- What is known of parts that stand one behind the other. -/
inductive Each (V : Option Token → List Token → α → α → Prop) :
    Option Token → List Token → List α → List α → Prop where
  | nil {u : Option Token} : Each V u [] [] []
  | cons {u : Option Token} {s s' : List Token} {a a' : α} {as as' : List α} (h : V u s a a')
      (hs : Each V (Token.after u s) s' as as') : Each V u (s ++ s') (a :: as) (a' :: as')

section
variable {V : Option Token → List Token → α → α → Prop}

theorem manyWith (hp : ∀ u, Tracks bad u sure (V u) p p') : ∀ {fuel fuel' : List Token},
    fuel'.length = fuel.length → ∀ u, Tracks bad u true (Each V u) (manyWith p fuel) (manyWith p' fuel')
  | [], [], _, _ => value .nil
  | x :: fuel, x' :: fuel', hlength, u => by
    intro c c' hc hu
    have hg := hp u hc hu
    unfold Matcher.manyWith
    generalize p c = r, p' c' = r' at hg
    cases hg with
    | @matched a a' d d' s hd hr hb hv =>
      have hplace := c.place_accept d
      obtain ⟨hrest, hbefore, -⟩ : (c.accept d).rest = d.rest ∧ (c.accept d).before = d.before ∧ _ := by
        simpa [Context.place] using hplace
      have hnext : (c.accept d).before = Token.after u s := by rw [hbefore, hb, hu]
      have hg := manyWith hp (Nat.succ.inj hlength) _ (hd.of_place hplace (c'.place_accept d')) hnext
      dsimp only
      generalize Matcher.manyWith p fuel (c.accept d) = r, Matcher.manyWith p' fuel' (c'.accept d') = r' at hg
      cases hg with
      | matched s' he hr' hb' hvs =>
        refine .matched (s ++ s') he ?_ ?_ (.cons hv hvs)
        · rw [hr, ← hrest, hr', List.append_assoc]
        · rw [hb', hnext, hu, Token.after_append]
      | unmatched hs => cases hs
      | failed h => exact .failed h
    | unmatched hs hd hr hb => exact .accept [] hd hr.symm hb .nil
    | @failed t t' d d' h =>
      refine .passOver hc h (((c.note t).place_noteBranch d t).trans (c.place_note t))
        (((c'.note t').place_noteBranch d' t').trans (c'.place_note t')) fun he => ?_
      exact .matched [] he rfl rfl .nil

theorem Each.mono {V' : Option Token → List Token → α → α → Prop} (h : ∀ u s a a', V u s a a' → V' u s a a')
    {s : List Token} {as as' : List α} (hs : Each V u s as as') : Each V' u s as as' := by
  induction hs with
  | nil => exact .nil
  | cons ha _ ih => exact .cons (h _ _ _ _ ha) ih

theorem many (hp : ∀ u, Tracks bad u sure (V u) p p') : Tracks bad u true (Each V u) (many p) (many p') :=
  fun _ _ hc hu => manyWith hp (congrArg (· + 1) hc.rest.length_eq) u hc hu

/-- What is known of a part behind a separator. -/
def Led (separator : String) (V : Option Token → List Token → α → α → Prop) (_ : Option Token) (s : List Token)
    (a a' : α) : Prop := ∃ t s', s = t :: s' ∧ t.text = separator ∧ V (some t) s' a a'

theorem more {separator : String} (hp : ∀ u, Tracks bad u sure (V u) p p') :
    Tracks bad u true (Each (Led separator V) u) (more separator p) (more separator p') := by
  refine many fun u => (text separator).bind ?_
  rintro _ t t' ⟨rfl, ht, -, -⟩
  exact (item (hp (some t))).mono fun s a a' h => ⟨t, s, rfl, ht, h⟩

/-- What is known of parts between separators. -/
inductive Listed (separator : String) (V : Option Token → List Token → α → α → Prop) (u : Option Token) :
    List Token → List α → List α → Prop where
  | mk {s s' : List Token} {a a' : α} {as as' : List α} (h : V u s a a')
      (hs : Each (Led separator V) (Token.after u s) s' as as') : Listed separator V u (s ++ s') (a :: as) (a' :: as')

theorem list {separator : String} (hp : ∀ u, Tracks bad u sure (V u) p p') :
    Tracks bad u sure (Listed separator V u) (list separator p) (list separator p') :=
  (hp u).bind fun _ _ _ h => (more hp).map fun _ _ _ hs => .mk h hs

end

/-- Alternatives that do the same one by one. -/
theorem choiceFrom {ps ps' : List (Matcher α)} (h : List.Forall₂ (Tracks bad u false V) ps ps') :
    ∀ {far far' : Option Token}, far'.isSome = far.isSome → ∀ n,
      Tracks bad u false V (choiceFrom far n ps) (choiceFrom far' n ps') := by
  induction h with
  | nil =>
    intro far far' hfar n c c' hc _
    have hcursor (x : Context) (y : Token) : (x.note y).cursor = x.cursor := congrArg (·.2.2) (x.place_note y)
    cases far <;> cases far' <;> simp only [Option.isSome_some, Option.isSome_none, reduceCtorEq] at hfar
    · exact .unmatched rfl hc rfl rfl
    · exact .failed (by rw [hcursor, hcursor, hc.cursor])
  | @cons p p' ps ps' hp hps ih =>
    intro far far' hfar n c c' hc hu
    have hg := hp hc hu
    unfold Matcher.choiceFrom
    generalize p c = r, p' c' = r' at hg
    cases hg with
    | matched s hd hr hb hv => exact .accept s hd hr hb hv
    | unmatched hs hd hr hb => exact ih hfar n hc hu
    | @failed t t' d d' h =>
      have hplace := c.place_noteBranch d t
      refine .passOver hc h hplace (c'.place_noteBranch d' t') fun he => ?_
      have hu : (c.noteBranch d t).before = u := (congrArg (·.2.1) hplace).trans hu
      rw [h]
      split
      · exact @ih (some t) (some t') rfl _ _ _ he hu
      · exact ih hfar _ he hu

theorem choice {ps ps' : List (Matcher α)} (h : List.Forall₂ (Tracks bad u false V) ps ps') :
    Tracks bad u false V (choice ps) (choice ps') := choiceFrom h rfl 0

theorem oneOf (texts : List String) : Tracks bad u false (IsToken (·.text ∈ texts)) (oneOf texts) (oneOf texts) := by
  refine choice ?_
  rw [List.forall₂_map_left_iff, List.forall₂_map_right_iff, List.forall₂_same]
  intro x hx
  refine (text x).mono ?_
  rintro _ t t' ⟨hs, rfl, h⟩
  exact ⟨hs, hx, h⟩

end Tracks

end Matcher

end ScriptOptimizer
