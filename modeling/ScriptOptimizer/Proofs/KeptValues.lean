import ScriptOptimizer.Proofs.AssignedNames
import ScriptOptimizer.Proofs.Placement

/-!
# Values that code keeps

Code that assigns certain names changes the values of those bindings only that these names mean where it
stands, and of those that it declares itself. The bindings of the scopes around it that none of the names
means have the same values at every point of its lowering.
-/

namespace ScriptOptimizer

theorem IR.Operand.same_temp (t : IR.TempId) : (IR.Operand.temp t).same (.temp t) = true := decide_eq_true rfl

namespace Lowering

open IR

/-! ## Zones -/

/-- Bindings that code keeps which stands in the scopes of a function and assigns certain names. -/
structure Zone (names : Names) where
  func : FuncId
  /-- The scopes around the code, innermost first. -/
  chain : List ScopeId
  /-- The names that the code may assign. -/
  Assigned : String → Prop
  Kept : BindingId → Prop
  value : BindingId → Option Operand
  lt : ∀ {b}, Kept b → b < names.bindings.size
  owner : ∀ {b}, Kept b → names.owner b = func
  scope_mem : ∀ {b}, Kept b → (names.binding b).scope ∈ chain
  not_assigned : ∀ {b z}, Kept b → Assigned z → chain.findSome? (names.lookup · z) ≠ some b

namespace Zone

variable {names : Names} {Z : Zone names} {c : Site} {s s' t : State} {pos : Position} {b : BindingId}
  {v : Option Operand} {values : Array (Option Operand)} {frame : Frame}

variable {stmt : Site → Stmt → Lower Unit} {n : StmtId} {bs : List BindingId} {value : Part} {body : Stmt}

/-- A value that a binding may have. -/
structure Fits (Z : Zone names) (b : BindingId) (v : Option Operand) : Prop where
  kept : Z.Kept b → v = Z.value b
  /-- No binding has a value that differs from itself. -/
  same : b < names.bindings.size → ∀ x, v = some x → x.same x = true

/-- The bindings have values that they may have. -/
structure Holds (Z : Zone names) (values : Array (Option Operand)) : Prop where
  slots : names.bindings.size ≤ values.size
  fits : ∀ b, Z.Fits b (values.getD b none)

theorem Fits.temp (h : ¬ Z.Kept b) (t : TempId) : Z.Fits b (some (.temp t)) := by
  refine ⟨fun hk => absurd hk h, fun _ x hx => ?_⟩
  cases hx
  exact Operand.same_temp t

/-- Results of expressions are no bindings. -/
theorem Fits.result (h : names.bindings.size ≤ b) : Z.Fits b v :=
  ⟨fun hk => absurd (Z.lt hk) (Nat.not_lt.mpr h), fun hb => absurd hb (Nat.not_lt.mpr h)⟩

theorem Holds.set (h : Z.Holds values) (hv : Z.Fits b v) : Z.Holds (values.setIfInBounds b v) := by
  refine ⟨by simpa using h.slots, fun r => ?_⟩
  rw [getD_setIfInBounds]
  split
  · next heq => exact heq.1 ▸ hv
  · exact h.fits r

theorem Holds.push (h : Z.Holds values) (v : Option Operand) : Z.Holds (values.push v) := by
  refine ⟨Nat.le_trans h.slots (by simp), fun r => ?_⟩
  by_cases hr : r < names.bindings.size
  · have hlt := Nat.lt_of_lt_of_le hr h.slots
    have hget : (values.push v).getD r none = values.getD r none := by
      simp [Array.getD_eq_getD_getElem?, Array.getElem?_push, Nat.ne_of_lt hlt]
    exact hget ▸ h.fits r
  · exact .result (Nat.not_lt.mp hr)

theorem Holds.restored (h : Z.Holds values) {entries : List (BindingId × Option Operand)}
    (he : ∀ e, e ∈ entries → Z.Fits e.1 e.2) : Z.Holds (restored values entries) := by
  induction entries generalizing values with
  | nil => exact h
  | cons e rest ih =>
    exact ih (h.set (he e List.mem_cons_self)) fun e he' => he e (List.mem_cons_of_mem _ he')

/-- The values that bindings had once fit later. -/
theorem Holds.fits_zip (h : Z.Holds s.values) (bs : List BindingId) :
    ∀ e, e ∈ bs.zip (s.valuesOf bs) → Z.Fits e.1 e.2 := by
  induction bs with
  | nil => nofun
  | cons b bs ih =>
    intro e he
    rcases List.mem_cons.mp he with rfl | he
    · exact h.fits b
    · exact ih e he

/-! ## Steps that set no values -/

theorem values_insertBefore {x y : StmtId} (h : insertBefore x y names s = .ok ((), s')) : s'.values = s.values := by
  obtain ⟨p, s1, e1, h1⟩ := bind_ok h
  obtain ⟨rfl, rfl⟩ := program_ok e1
  dsimp only at h1
  cases hfront : insertInFront x y (s1.program.block (s1.program.stmt x).block).stmts with
  | none =>
    rw [hfront] at h1
    exact (broken_ok h1).elim
  | some list =>
    rw [hfront] at h1
    cases h1
    rfl

theorem values_copyInto {m : TempId} {x : Option Operand} {block : BlockId} {q : Option StmtId} {y : StmtId}
    (h : copyInto m x block q pos names s = .ok (y, s')) : s'.values = s.values := by
  obtain ⟨-, d, u, k, cs, tracking, -, -, rfl⟩ := copyInto_ok h
  rfl

theorem values_copyArm {m : TempId} {last : Option BlockId} {x : Option Operand}
    (h : copyArm c n m pos last x names s = .ok ((), s')) : s'.values = s.values := by
  cases last with
  | none =>
    obtain ⟨p, s1, e1, h1⟩ := bind_ok h
    obtain ⟨rfl, rfl⟩ := program_ok e1
    obtain ⟨y, s2, e2, h2⟩ := bind_ok h1
    exact (values_insertBefore h2).trans (values_copyInto e2)
  | some b =>
    obtain ⟨y, s1, e1, h1⟩ := bind_ok h
    have hvalues := values_copyInto e1
    rw [append_apply] at h1
    cases h1
    exact hvalues

theorem values_pendingCopies {merges : List TempId} {carried : List (BindingId × TempId)}
    {copies : List (TempId × Operand)} (h : pendingCopies c pos merges carried names s = .ok (copies, s')) :
    s'.values = s.values := by
  induction carried generalizing s s' copies with
  | nil =>
    obtain ⟨-, rfl⟩ := pure_ok h
    rfl
  | cons e rest ih =>
    obtain ⟨b, m⟩ := e
    obtain ⟨v, s1, e1, h1⟩ := bind_ok h
    obtain ⟨-, rfl⟩ := Law.value?_ok e1
    cases v with
    | none => exact ih h1
    | some v =>
      dsimp only at h1
      split at h1
      · exact ih h1
      · split at h1
        · obtain ⟨y, s2, e2, h2⟩ := bind_ok h1
          obtain ⟨ys, s3, e3, h3⟩ := bind_ok h2
          obtain ⟨-, rfl⟩ := pure_ok h3
          have hvalues := ih e3
          rw [hold, temp_apply] at e2
          cases e2
          exact hvalues
        · obtain ⟨y, s2, e2, h2⟩ := bind_ok h1
          obtain ⟨-, rfl⟩ := pure_ok e2
          obtain ⟨ys, s3, e3, h3⟩ := bind_ok h2
          obtain ⟨-, rfl⟩ := pure_ok h3
          exact ih e3

/-! ## Branches -/

/-- The values that a binding has at the ends of the arms of a branch fit, and so does what is made of
them. -/
theorem Holds.mergeBinding {ends : List (Option BlockId × Option Operand)} (h : Z.Holds s.values)
    (he : ∀ e, e ∈ ends → Z.Fits b e.2) (hs : mergeBinding c n pos b ends names s = .ok ((), s')) :
    Z.Holds s'.values := by
  unfold Lowering.mergeBinding at hs
  split at hs
  · cases hs
    exact h
  · next last others =>
    cases hs
    exact h.set (he (last, none) List.mem_cons_self)
  · next last first others =>
    have hfirst : Z.Fits b (some first) := he (last, some first) List.mem_cons_self
    split at hs
    · cases hs
      exact h.set hfirst
    · next hdiffer =>
      have hkept : ¬ Z.Kept b := by
        -- A binding that is kept has the same value at the ends of all arms.
        intro hk
        refine hdiffer (List.all_eq_true.mpr fun v hv => ?_)
        obtain ⟨e, hmem, rfl⟩ := List.mem_map.mp hv
        rw [(he e (List.mem_cons_of_mem _ hmem)).kept hk, ← hfirst.kept hk]
        exact hfirst.same (Z.lt hk) first rfl
      obtain ⟨p, s1, e1, h1⟩ := bind_ok hs
      obtain ⟨rfl, rfl⟩ := program_ok e1
      obtain ⟨⟨m, d⟩, s2, e2, h2⟩ := bind_ok h1
      obtain ⟨_, s3, e3, h3⟩ := bind_ok h2
      obtain ⟨_, s4, e4, h4⟩ := bind_ok h3
      have hvalues := forM_ok (P := fun t => t.values = s2.values) (values_insertBefore e3)
        (fun e _ t t' ht hrun => (values_copyArm hrun).trans ht) e4
      rw [newMerge_apply] at e2
      cases e2
      cases h4
      rw [show s1.values = _ from hvalues.symm] at h
      exact h.set (.temp hkept _)

theorem Holds.mergeBindings {arms : List Arm} {i : Nat} (h : Z.Holds s.values)
    (ha : ∀ a, a ∈ arms → ∀ j b, bs[j]? = some b → Z.Fits b (a.values.getD (i + j) none))
    (hs : mergeBindings c n pos arms bs i names s = .ok ((), s')) : Z.Holds s'.values := by
  induction bs generalizing s i with
  | nil =>
    cases hs
    exact h
  | cons b bs ih =>
    obtain ⟨_, s1, e1, h1⟩ := bind_ok hs
    refine ih (h.mergeBinding (fun e he => ?_) e1) (fun a hmem j r hr => ?_) h1
    · obtain ⟨a, hmem, rfl⟩ := List.mem_map.mp he
      exact ha a hmem 0 b rfl
    · rw [Nat.add_right_comm]
      exact ha a hmem (j + 1) r hr

/-- The values at the end of an arm fit. -/
theorem Holds.fits_valuesOf (h : Z.Holds s.values) {j : Nat} (hb : bs[j]? = some b) :
    Z.Fits b ((s.valuesOf bs).getD j none) := by
  have : (s.valuesOf bs).getD j none = s.values.getD b none := by
    simp [State.valuesOf, List.getD_eq_getElem?_getD, hb]
  exact this ▸ h.fits b

/-- A branch keeps values if its arms do. -/
theorem Holds.branch {cond : Operand} {thenArm : Site → Lower Unit} {elseArm : Option (Site → Lower Unit)}
    {extra : List BindingId} (h : Z.Holds s.values)
    (harms : ∀ arm, arm = thenArm ∨ elseArm = some arm → ∀ t t',
      arm (c.inArm s.program.stmts.size) names t = .ok ((), t') → Z.Holds t.values → Z.Holds t'.values)
    (hs : branch c cond thenArm elseArm extra pos names s = .ok ((), s')) : Z.Holds s'.values := by
  obtain ⟨t, s1, second, s2, hthen, rfl, hsecond, hend⟩ := branch_ok rfl hs
  generalize visibleBindings names c ++ extra = tracked at hsecond hend
  have ht : Z.Holds t.values := harms thenArm (.inl rfl) _ t hthen h
  have hleave : Z.Holds (Lowering.restored t.values (tracked.zip (s.valuesOf tracked))) :=
    ht.restored (h.fits_zip tracked)
  have harm : ∀ {u a}, Z.Holds u.values → armAfter tracked u = some a →
      ∀ j b, tracked[j]? = some b → Z.Fits b (a.values.getD (0 + j) none) := by
    intro u a hu ha j b hb
    rw [Nat.zero_add]
    unfold armAfter at ha
    split at ha
    · cases ha
    · cases ha
      exact hu.fits_valuesOf hb
  obtain ⟨hs2, hsecond⟩ : Z.Holds s2.values ∧ ∀ a, second = some a →
      ∀ j b, tracked[j]? = some b → Z.Fits b (a.values.getD (0 + j) none) := by
    rcases hsecond with ⟨-, rfl, rfl⟩ | ⟨arm, u, harm', hrun, rfl, rfl⟩
    · refine ⟨hleave, fun a ha j b hb => ?_⟩
      cases ha
      rw [Nat.zero_add]
      exact h.fits_valuesOf hb
    · have hu : Z.Holds u.values := harms arm (.inr harm') _ u hrun hleave
      exact ⟨hu.restored (h.fits_zip tracked), fun a ha => harm hu ha⟩
  split at hend
  · subst hend
    exact hs2
  · refine Holds.mergeBindings (s := s2.continueFrom c s.block) hs2 (fun a hmem => ?_) hend
    rcases List.mem_append.mp hmem with hmem | hmem
    · exact harm ht (Option.mem_toList.mp hmem)
    · exact hsecond a (Option.mem_toList.mp hmem)

/-! ## Loops -/

/-- The bindings that get new values in every round of a loop are not kept. -/
def Free (Z : Zone names) (carried : List (BindingId × TempId)) : Prop := ∀ e, e ∈ carried → ¬ Z.Kept e.1

theorem Holds.reloaded (h : Z.Holds s.values) (hf : Z.Free frame.carried) : Z.Holds (s.reloaded frame).values := by
  refine h.restored fun e he => ?_
  obtain ⟨r, hr, rfl⟩ := List.mem_map.mp he
  exact .temp (hf r hr) _

theorem Holds.sync (h : Z.Holds s.values) (hf : Z.Free frame.carried)
    (hs : sync c frame pos names s = .ok ((), s')) : Z.Holds s'.values := by
  obtain ⟨copies, s1, e1, h1⟩ := bind_ok hs
  obtain ⟨st, s2, e2, h2⟩ := bind_ok h1
  obtain ⟨rfl, rfl⟩ := get_ok e2
  obtain ⟨_, s3, e3, h3⟩ := bind_ok h2
  have hvalues := forM_ok (P := fun t => t.values = s.values) (values_pendingCopies e1) (fun x _ t t' ht hrun => by
    obtain ⟨y, t1, f1, g1⟩ := bind_ok hrun
    rw [append_apply] at g1
    cases g1
    exact (values_copyInto f1).trans ht) e3
  rw [← hvalues] at h
  rw [reload_ok h3]
  exact h.reloaded hf

theorem Holds.enterBinding {r : BindingId × TempId} (h : Z.Holds s.values) (hb : ¬ Z.Kept b)
    (hs : enterBinding c pos b names s = .ok (r, s')) : Z.Holds s'.values ∧ ¬ Z.Kept r.1 := by
  obtain ⟨rfl, t, rfl, hrest⟩ := enterBinding_ok hs
  rcases hrest with ⟨-, rfl⟩ | ⟨v, x, t1, t2, -, hc, ha, rfl⟩
  · exact ⟨h.set (.temp hb _), hb⟩
  · rw [append_apply] at ha
    cases ha
    refine ⟨Holds.set ?_ (.temp hb _), hb⟩
    rw [values_copyInto hc]
    exact h

theorem Holds.enterLoop {carried : List (BindingId × TempId)} (h : Z.Holds s.values)
    (hb : ∀ b, b ∈ bs → ¬ Z.Kept b) (hs : bs.mapM (Lowering.enterBinding c pos) names s = .ok (carried, s')) :
    Z.Holds s'.values ∧ Z.Free carried := by
  refine mapM_ok (P := fun _ ds t => Z.Holds t.values ∧ Z.Free ds) ⟨h, nofun⟩ ?_ hs
  rintro done ds b t r t' hmem ⟨ht, hfree⟩ hrun
  obtain ⟨ht', hr⟩ := ht.enterBinding (hb b hmem) hrun
  refine ⟨ht', fun e he => ?_⟩
  rcases List.mem_append.mp he with he | he
  · exact hfree e he
  · exact List.mem_singleton.mp he ▸ hr

/-- Steps that keep values. -/
def Steady (Z : Zone names) {α : Type} (m : Lower α) : Prop :=
  ∀ t x t', m names t = .ok (x, t') → Z.Holds t.values → Z.Holds t'.values

theorem Steady.testStep {test : Expr} (hv : Z.Steady (value c test)) (hf : Z.Free frame.carried) :
    Z.Steady (testStep value c frame test pos) := by
  intro t x t' h ht
  obtain ⟨y, t1, e1, h1⟩ := bind_ok h
  obtain ⟨_, t2, e2, h2⟩ := bind_ok h1
  obtain ⟨-, rfl⟩ := pure_ok h2
  exact (hv t y t1 e1 ht).sync hf e2

theorem Steady.bodyStep (hbody : Z.Steady (stmt c body))
    (hupdate : ∀ e, frame.update = some e → Z.Steady (value { c with scope := frame.head } e))
    (hf : Z.Free frame.carried) : Z.Steady (bodyStep value stmt c frame body pos) := by
  intro t x t' h ht
  obtain ⟨_, t1, e1, h1⟩ := bind_ok h
  have ht1 := hbody t _ t1 e1 ht
  obtain ⟨st, t2, e2, h2⟩ := bind_ok h1
  obtain ⟨rfl, rfl⟩ := get_ok e2
  split at h2
  · obtain ⟨-, rfl⟩ := pure_ok h2
    exact ht1
  · obtain ⟨_, t3, e3, h3⟩ := bind_ok h2
    refine Holds.sync ?_ hf h3
    unfold runUpdate at e3
    cases hu : frame.update with
    | none =>
      rw [hu] at e3
      obtain ⟨-, rfl⟩ := pure_ok e3
      exact ht1
    | some e =>
      rw [hu] at e3
      obtain ⟨y, e4⟩ := discard_ok e3
      exact hupdate e hu _ y t3 e4 ht1

theorem Holds.runsTest {step : Lower Operand} {behind : Bool} {e : BlockId} (h : Z.Holds s.values)
    (hstep : Z.Steady step) (hs : RunsTest names step n behind e s s') : Z.Holds s'.values := by
  obtain ⟨cond, t, ht, rfl⟩ := hs
  exact hstep _ _ t ht h

theorem Holds.runsBody {step : Lower Unit} {e : BlockId} (h : Z.Holds s.values) (hstep : Z.Steady step)
    (hs : RunsBody names step e s s') : Z.Holds s'.values := by
  obtain ⟨t, ht, rfl⟩ := hs
  exact hstep _ _ t ht h

theorem Holds.exitLoop (h : Z.Holds s.values) (hf : Z.Free frame.carried)
    (hs : exitLoop c frame names s = .ok ((), s')) : Z.Holds s'.values := by
  cases exitLoop_ok hs
  exact h.reloaded hf

/-- A loop with a condition keeps values if its parts do and it carries no binding that is kept. -/
theorem Holds.testedLoop {behind : Bool} {test : Expr} {update : Option Expr} (h : Z.Holds s.values)
    (hcarried : ∀ b, b ∈ carriedBindings names c
      (exprAssigns test ++ (update.map exprAssigns).getD [] ++ stmtAssigns body) → ¬ Z.Kept b)
    (htest : ∀ f, f.update = update → f.head = c.scope → Z.Free f.carried → Z.Steady (value (c.inLoop f) test))
    (hupdate : ∀ f e, f.update = update → f.head = c.scope → Z.Free f.carried → update = some e →
      Z.Steady (value { c.inLoop f with scope := f.head } e))
    (hbody : ∀ f, f.update = update → f.head = c.scope → Z.Free f.carried → Z.Steady (stmt (c.inLoop f) body))
    (hs : testedLoop value stmt c behind test body update pos names s = .ok ((), s')) : Z.Holds s'.values := by
  obtain ⟨carried, s1, s2, s3, frame, hc, hframe, hparts, hexit⟩ := testedLoop_ok hs
  obtain ⟨h1, hfree⟩ := Holds.enterLoop (s := { s with tracking := {} }) h hcarried hc
  have hu : frame.update = update := by rw [hframe]
  have hh : frame.head = c.scope := by rw [hframe]
  have hf : Z.Free frame.carried := by rwa [hframe]
  have hteststep : Z.Steady (Lowering.testStep value (c.inLoop frame) frame test pos) :=
    .testStep (htest frame hu hh hf) hf
  have hbodystep : Z.Steady (Lowering.bodyStep value stmt (c.inLoop frame) frame body pos) :=
    .bodyStep (hbody frame hu hh hf) (fun e he => hupdate frame e hu hh hf (hu ▸ he)) hf
  refine Holds.exitLoop ?_ hf hexit
  have h0 : Z.Holds (s1.startTested c behind pos).values := h1
  rcases hparts with ⟨-, ht, hb⟩ | ⟨-, hb, ht⟩
  · exact (h0.runsTest hteststep ht).runsBody hbodystep hb
  · exact Holds.runsTest ((h0.runsBody hbodystep hb).reloaded hf) hteststep ht

/-- A loop over keys or values keeps values if its body does and it carries no binding that is kept. -/
theorem Holds.iteratedLoop {of isDeclared : Bool} {name : String} {object : Operand}
    (h : Z.Holds s.values) (hcarried : ∀ b, b ∈ iteratedBindings names c name body → ¬ Z.Kept b)
    (hbody : ∀ f, f.update = none → Z.Free f.carried → Z.Steady (stmt (c.inLoop f) body))
    (hs : iteratedLoop stmt c of isDeclared name object body pos names s = .ok ((), s')) : Z.Holds s'.values := by
  obtain ⟨declared, assigned, carried, s1, s2, frame, each, -, hc, hframe, -, -, hb, hexit⟩ :=
    iteratedLoop_ok (fun _ _ => pure default) hs
  obtain ⟨h1, hfree⟩ := Holds.enterLoop (s := { s with declared, tracking := {} }) h hcarried hc
  have hf : Z.Free frame.carried := by rwa [hframe]
  have hu : frame.update = none := by rw [hframe]
  refine Holds.exitLoop (Holds.runsBody ?_ (.bodyStep (hbody frame hu hf) (fun e he => ?_) hf) hb) hf hexit
  · exact h1
  · rw [hu] at he
    cases he

end Zone

end Lowering

end ScriptOptimizer
