import ScriptOptimizer.Proofs.LoweringStructure
import ScriptOptimizer.Proofs.PassStructure
import ScriptOptimizer.Proofs.ResolvedScripts

/-!
# Programs are well formed

Lowering gives well-formed programs, and every pass keeps them so.
-/

namespace ScriptOptimizer

open IR

/-- Lowering resolves the names of a script first. -/
theorem Script.lower_ok {s : Script} {p : Program} (h : s.lower = .ok p) :
    ∃ r names t, s.resolve = .ok (r, names) ∧
      Lowering.script names r names (Lowering.initial names) = .ok ((), t) ∧ p = t.program := by
  unfold Script.lower at h
  cases hr : s.resolve with
  | error => rw [hr] at h; cases h
  | ok x =>
    obtain ⟨r, names⟩ := x
    rw [hr] at h
    cases hl : Lowering.script names r names (Lowering.initial names) with
    | error =>
      simp only [bind, Except.bind, ReaderT.run, StateT.run, hl] at h
      cases h
    | ok y =>
      obtain ⟨⟨⟩, t⟩ := y
      simp only [bind, Except.bind, ReaderT.run, StateT.run, hl] at h
      cases h
      exact ⟨r, names, t, rfl, hl, rfl⟩

/-- The program of a script obeys the rules of structure. -/
theorem Script.lower_coherent {s : Script} {p : Program} (h : s.lower = .ok p) :
    p.Coherent ∧ (s.All (startsPlain · = true) → p.EndsLast) := by
  obtain ⟨r, names, t, hr, ht, rfl⟩ := s.lower_ok h
  have hbuilt := Lowering.script_built ht
  exact ⟨hbuilt.coherent, fun hs => hbuilt.ends (hs.of_resolve hr)⟩

/-- Passes in any order keep the rules of structure. -/
theorem Pass.reshapes_applyAll {p : Program} (forSize : Bool) (passes : List Pass) (hp : p.Coherent) :
    p.Reshapes (Pass.applyAll forSize passes p) :=
  List.foldlRecOn (motive := p.Reshapes) _ _ (.refl p) fun _ hq pass _ =>
    hq.trans (pass.reshapes_apply forSize (hp.of_reshapes hq))

/-- Whatever passes run over the program of a script, it stays well formed; the statements that end a
block stand at its end if every loop of the script starts with a declaration or an expression. -/
theorem Pass.applyAll_wellFormed {s : Script} {p : Program} (h : s.lower = .ok p) (forSize : Bool)
    (passes : List Pass) :
    (Pass.applyAll forSize passes p).WellFormed ∧
    (s.All (startsPlain · = true) → (Pass.applyAll forSize passes p).EndsLast) := by
  obtain ⟨hp, hends⟩ := s.lower_coherent h
  have hr := Pass.reshapes_applyAll forSize passes hp
  exact ⟨(hp.of_reshapes hr).wellFormed, fun hs => (hends hs).of_reshapes hr⟩

/-- A function with two loops in each other, of which the inner one is left. -/
def nestedLoops : String := "(function () \x7b for (var i = this; i;) \x7b while (i) break; return i; \x7d \x7d);"

theorem Pass.applyAll_wellFormed_nestedLoops :
    ∃ x p, Script.parse "" nestedLoops = .ok x ∧ x.lower = .ok p ∧
      (Pass.applyAll true [.deadStatementCulling, .liveness] p).WellFormed ∧
      (Pass.applyAll true [.deadStatementCulling, .liveness] p).EndsLast := by
  obtain ⟨x, p, hx, hp, hplain⟩ := Script.exists_lower nestedLoops
    (fun x _ => (Walk.script Walk.everywhere x).all (startsPlain ·.node)) (by decide +kernel)
  obtain ⟨hwf, hends⟩ := Pass.applyAll_wellFormed hp true [.deadStatementCulling, .liveness]
  exact ⟨x, p, hx, hp, hwf, hends (List.all_eq_true.mp hplain)⟩

/-- A loop that starts by leaving its function. -/
def returningLoop : Script :=
  { pos := {}, body := [.expr {} (.function {}
      { pos := {}, id := none, name := "", params := [], generator := false
        body := [.forLoop {} none (some (.returnValue {} none)) none none (.empty {})] })] }

/-- A loop that starts with a jump stands behind it in a block that can run. -/
theorem Script.lower_returningLoop :
    ∃ p b s, returningLoop.lower = .ok p ∧ (p.block b).dead = false ∧ s ∈ (p.block b).stmts ∧
      (p.stmt s).action.endsBlock = true ∧ (p.block b).stmts.getLast? ≠ some s := by
  obtain ⟨p, h, hp⟩ := exists_ok (x := returningLoop.lower) (P := fun p => (p.block 1).dead = false ∧
    0 ∈ (p.block 1).stmts ∧ (p.stmt 0).action.endsBlock = true ∧
    (p.block 1).stmts.getLast? ≠ some 0) (by decide +kernel)
  exact ⟨p, 1, 0, h, of_decide_eq_true hp⟩

end ScriptOptimizer
