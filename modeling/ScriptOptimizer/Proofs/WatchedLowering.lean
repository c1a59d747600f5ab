import ScriptOptimizer.Proofs.LoweringStructure

/-!
# Watched lowering

What holds at every point of the lowering of a script is said by a lowering that is given up at the first
point where it does not hold: it never is, so it gives what lowering gives. The points are the starts and
the ends of all expressions, statements and functions.
-/

namespace ScriptOptimizer

namespace Lowering

open IR

/-- A part of a script that is lowered at a site. -/
inductive Job where
  | value (c : Site) (e : Expr)
  | stmt (c : Site) (x : Stmt)
  | function (c : Site) (f : Func)

/-- The site at which a part is lowered. -/
def Job.site : Job → Site
  | value c _ | stmt c _ | function c _ => c

/-- What has to hold where a part is started that may nest to a number of steps, and behind it. -/
structure Watch where
  before : Nat → Job → State → Prop
  behind : Nat → Job → State → Prop

open Classical in
/-- Gives up unless a condition holds. -/
noncomputable def require (stop : Failure) (P : State → Prop) : Lower Unit := fun _ s =>
  if P s then .ok ((), s) else .error stop

/-- A step that is given up unless a condition holds where it starts, and another one behind it. -/
noncomputable def between (stop : Failure) (before behind : State → Prop) {α : Type} (m : Lower α) :
    Lower α := do
  require stop before
  let a ← m
  require stop behind
  return a

/-- How trees are lowered if it is given up with a failure wherever a condition does not hold. -/
noncomputable def watched (stop : Failure) (w : Watch) : Nat → Parts
  | 0 => parts 0
  | fuel + 1 =>
    let P := (watched stop w fuel).layer
    { value := fun c e =>
        between stop (w.before (fuel + 1) (.value c e)) (w.behind (fuel + 1) (.value c e)) (P.value c e)
      stmt := fun c x =>
        between stop (w.before (fuel + 1) (.stmt c x)) (w.behind (fuel + 1) (.stmt c x)) (P.stmt c x)
      function := fun c f =>
        between stop (w.before (fuel + 1) (.function c f)) (w.behind (fuel + 1) (.function c f))
          (P.function c f) }

theorem between_eq {α : Type} {names : Names} {s : State} {stop : Failure} {before behind : State → Prop}
    {m m' : Lower α} (hb : before s) (h : m' names s = m names s)
    (hm : ∀ a t, m names s = .ok (a, t) → behind t) :
    between stop before behind m' names s = m names s := by
  have hrequire : ∀ {P : State → Prop} {t}, P t → require stop P names t = .ok ((), t) := fun hP => if_pos hP
  calc between stop before behind m' names s
      = (do let a ← m'; require stop behind; return a : Lower α) names s := by
        change (require stop before names s).bind _ = _
        rw [hrequire hb]
        rfl
    _ = (m >>= pure) names s := by
        refine bind_eq_bind h fun a t ht => ?_
        change (require stop behind names t).bind _ = _
        rw [hrequire (hm a t ht)]
        rfl
    _ = m names s := by rw [bind_pure]

/-- A step that is not given up. -/
theorem Alike.between {α : Type} {A : Prop} {names : Names} {s : State} {stop : Failure} {before behind : State → Prop}
    {m m' : Lower α} {Q : State → α → Prop} (h : Alike A names s m m' Q) (hb : before s)
    (hq : ∀ {t a}, Q t a → behind t) : Alike A names s m (Lowering.between stop before behind m') Q :=
  ⟨fun hA => between_eq hb (h.same hA) fun _ _ e => hq (h.gives e), h.gives⟩

namespace CodeLaw

variable {names : Names} {L : CodeLaw names} {stop : Failure} {w : Watch}

/-- The conditions hold wherever the law does. -/
structure Provides (L : CodeLaw names) (w : Watch) : Prop where
  value : ∀ {c e s fuel}, L.Tree c.func c.scope e → L.Inv c s → w.before fuel (.value c e) s
  stmt : ∀ {c x s fuel}, L.Code c.func c.scope x → L.Around c → L.Inv c s → w.before fuel (.stmt c x) s
  function : ∀ {c f s fuel}, L.Body c.func c.scope f → L.Inv c s → w.before fuel (.function c f) s
  value_behind : ∀ {c e s fuel}, L.Inv c s → w.behind fuel (.value c e) s
  stmt_behind : ∀ {c x s fuel}, L.Behind c s → w.behind fuel (.stmt c x) s
  function_behind : ∀ {c f s fuel}, L.Inv c s → w.behind fuel (.function c f) s

/-- Lowering is never given up if the law implies all conditions. -/
theorem obey_watched (hL : L.StartsParts) (hw : L.Provides w) (fuel : Nat) :
    L.Obey True (parts fuel) (watched stop w fuel) := by
  induction fuel with
  | zero =>
    exact ⟨fun _ _ _ _ _ => .of_fails fail_ok, fun _ _ _ _ _ _ => .of_fails fail_ok,
      fun _ _ _ _ _ => .of_fails fail_ok⟩
  | succ fuel ih =>
    have h := ih.layer fun _ => hL
    constructor
    · intro c e s he hi
      exact (h.value c e s he hi).between (hw.value he hi) fun k => hw.value_behind k.1.inv
    · intro c x s hx hc hi
      exact (h.stmt c x s hx hc hi).between (hw.stmt hx hc hi) fun k => hw.stmt_behind k.1.behind
    · intro c f s hf hi
      exact (h.function c f s hf hi).between (hw.function hf hi) fun k => hw.function_behind k.1.inv

/-- The law holds where a script starts, and its statements are such as the law is about. -/
structure StartsScript (L : CodeLaw names) (x : Script) : Prop where
  inv : L.Inv (.ofScript names) (.ofScript names)
  code : ∀ y, y ∈ x.body → L.Code topFunc (names.function topFunc).scope y
  binds : ∀ p f, .function p f ∈ x.body → L.Binds topFunc (names.function topFunc).scope f

end CodeLaw

/-- Lowers a script with resolved names, given how its parts are lowered. -/
def scriptWith (P : Parts) (names : Names) (x : Script) : Lower Unit := do
  let entry ← newBlock topFunc none
  modify fun s => { s with block := entry }
  body P.function P.stmt (.ofScript names) x.body

theorem scriptWith_parts (names : Names) (x : Script) : scriptWith (parts maxSteps) names x = script names x :=
  rfl

theorem CodeLaw.scriptWith_agree {names : Names} {L : CodeLaw names} {P : Parts} {x : Script}
    (hx : L.StartsScript x) (h : L.Obey True (parts maxSteps) P) :
    scriptWith P names x names (initial names) = script names x names (initial names) := by
  rw [← scriptWith_parts]
  refine bind_eq_bind rfl fun b s1 e1 => ?_
  rw [newBlock_apply] at e1
  cases e1
  refine bind_eq_bind rfl fun _ s2 e2 => ?_
  cases e2
  exact (h.body (fun _ _ hf => by cases hf) hx.code hx.binds hx.inv).same trivial

end Lowering

open Lowering

/-- The intermediate program of a script, if lowering is given up with a failure wherever a condition on
the points of lowering does not hold. -/
noncomputable def Script.lowerWatched (stop : Failure) (w : Names → Watch) (x : Script) :
    Except Failure IR.Program := do
  let (x, names) ← x.resolve
  let ((), state) ← ((scriptWith (watched stop (w names) maxSteps) names x).run names).run (initial names)
  return state.program

private theorem bind_congr_ok {α β : Type} {m : Except Failure α} {f g : α → Except Failure β}
    (h : ∀ a, m = .ok a → f a = g a) : (m >>= f) = (m >>= g) := by
  cases m with
  | error e => rfl
  | ok a => exact h a rfl

private theorem program_eq_program {names : Names} {s : State} {m m' : Lower Unit}
    (h : m' names s = m names s) :
    (do let ((), state) ← (m'.run names).run s; return state.program : Except Failure IR.Program) =
      (do let ((), state) ← (m.run names).run s; return state.program) := by
  change (m' names s).bind _ = (m names s).bind _
  rw [h]

/-- Lowering is not given up if a law implies the conditions and holds at the start. -/
theorem Script.lowerWatched_eq {stop : Failure} {w : Names → Watch} {x : Script}
    (h : ∀ r names, x.resolve = .ok (r, names) →
      ∃ L : CodeLaw names, L.StartsParts ∧ L.Provides (w names) ∧ L.StartsScript r) :
    x.lowerWatched stop w = x.lower := by
  refine bind_congr_ok fun r hr => ?_
  obtain ⟨L, hL, hw, hx⟩ := h r.1 r.2 hr
  exact program_eq_program (CodeLaw.scriptWith_agree hx (CodeLaw.obey_watched hL hw maxSteps))

end ScriptOptimizer
