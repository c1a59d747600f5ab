import Mathlib.Data.Finset.Card
import Mathlib.Order.Bounds.Defs
import ScriptOptimizer.Proofs.Paths

/-!
# Live statements

The pass marks statements by a worklist. The main statement describes its result without one: the live
statements are the smallest set that holds the roots of the active blocks and, with a statement, whatever it
depends on.
-/

namespace ScriptOptimizer.IR

/-! ## Visited statements -/

namespace Program

variable {p : Program} {b c : BlockId} {s : StmtId} {k : Nat}

theorem Structured.lt_of_passesTo (hp : p.Structured) (h : p.PassesTo b c) : b < c := by
  rcases h with h | ⟨s, hs, hc⟩
  · exact (hp.next b c h).1
  · have hlt := hp.descends c s (hp.owned b s c hs hc)
    rwa [(hp.home b s hs).2] at hlt

/-- A visit of a block includes one of each block that it leads to. -/
theorem mem_chainStmts_of_passesTo (hd : (p.block b).dead = false) (h : p.PassesTo b c)
    (hs : s ∈ p.chainStmts k (some c)) : s ∈ p.chainStmts (k + 1) (some b) := by
  rw [chainStmts, hd, if_neg (by decide), List.mem_append]
  rcases h with h | ⟨x, hx, hc⟩
  · exact .inr (h ▸ hs)
  · exact .inl (List.mem_flatMap.mpr ⟨x, hx, List.mem_cons_of_mem _ (List.mem_flatMap.mpr ⟨c, hc, hs⟩)⟩)

/-- An active block is visited within as many rounds as there are blocks in front of it. -/
theorem Active.exists_rounds (hp : p.Structured) (h : p.Active b) : (p.block b).dead = false ∧
    ∃ n : Nat, n ≤ b ∧ ∃ f < p.functions.size,
      ∀ k s, s ∈ p.chainStmts k (some b) → s ∈ p.chainStmts (k + n) (p.firstBlock? f) := by
  induction h with
  | first hf hb hd => exact ⟨hd, 0, Nat.zero_le _, _, hf, fun k s hs => hb ▸ hs⟩
  | step _ hc hd ih =>
    obtain ⟨hdead, n, hn, f, hf, hsub⟩ := ih
    refine ⟨hd, n + 1, Nat.lt_of_le_of_lt hn (hp.lt_of_passesTo hc), f, hf, fun k s hs => ?_⟩
    have hrounds := hsub (k + 1) s (mem_chainStmts_of_passesTo hdead hc hs)
    rwa [Nat.add_right_comm] at hrounds

/-- A visit meets the statements of the active blocks. -/
theorem mem_allStmts_iff (hp : p.Structured) :
    s ∈ p.allStmts ↔ ∃ b, p.Active b ∧ s ∈ (p.block b).stmts := by
  refine ⟨active_of_mem_allStmts, ?_⟩
  rintro ⟨b, hb, hs⟩
  obtain ⟨hd, n, hn, f, hf, hsub⟩ := hb.exists_rounds hp
  have hlt : b < p.blocks.size := p.lt_of_mem_stmts hs
  have hdepth : n + 1 ≤ p.depth := Nat.succ_le_succ (hn.trans hlt.le)
  obtain ⟨k, hk⟩ := Nat.exists_eq_add_of_le' hdepth
  rw [← Nat.add_assoc, Nat.add_right_comm] at hk
  refine List.mem_flatMap.mpr ⟨f, List.mem_range.mpr hf, ?_⟩
  rw [functionStmts, hk]
  apply hsub
  rw [chainStmts, hd, if_neg (by decide)]
  exact List.mem_append_left _ (List.mem_flatMap.mpr ⟨s, hs, List.mem_cons_self⟩)

end Program

end ScriptOptimizer.IR

namespace ScriptOptimizer.Liveness

open IR Program

/-! ## The worklist -/

variable {p q : Program} {s d : StmtId} {work : List StmtId} {w : Writes}

/-- The number of statements that are not live. -/
def unmarked (p : Program) : Nat := ((Finset.range p.stmts.size).filter fun s => (p.stmt s).live = false).card

/-- How marking statements goes on: they become live, and what becomes live is at work. -/
structure Marked (list : List StmtId) (q : Program) (work : List StmtId) (r : Program × List StmtId) :
    Prop where
  size : r.1.stmts.size = q.stmts.size
  live : ∀ s, (q.stmt s).live = true ∨ s ∈ list → (r.1.stmt s).live = true
  fresh : ∀ s, (r.1.stmt s).live = true → (q.stmt s).live = true ∨ s ∈ r.2
  kept : ∀ s, s ∈ work → s ∈ r.2
  count : unmarked r.1 + r.2.length ≤ unmarked q + work.length

theorem marked_mark (hs : s < q.stmts.size) : Marked [s] q work (mark (q, work) s) := by
  cases hl : (q.stmt s).live with
  | true =>
    have heq : mark (q, work) s = (q, work) := if_pos hl
    rw [heq]
    exact ⟨rfl, fun x hx => hx.elim id fun hx => List.mem_singleton.mp hx ▸ hl, fun _ => .inl,
      fun _ => id, Nat.le_refl _⟩
  | false =>
    have heq : mark (q, work) s = (q.modifyStmt s fun x => { x with live := true }, s :: work) :=
      if_neg (by simp [hl])
    rw [heq]
    have hlive (x : StmtId) : ((q.modifyStmt s fun x => { x with live := true }).stmt x).live = true ↔
        (q.stmt x).live = true ∨ x = s := by
      rw [Program.stmt_modifyStmt]
      by_cases hx : x = s <;> simp [hx, hs]
    refine ⟨Array.size_modify, fun x hx => (hlive x).mpr (hx.imp_right List.mem_singleton.mp),
      fun x hx => ((hlive x).mp hx).imp_right fun (hx : x = s) => hx ▸ List.mem_cons_self,
      fun x hx => List.mem_cons_of_mem _ hx, ?_⟩
    have hmem : s ∈ (Finset.range q.stmts.size).filter fun x => (q.stmt x).live = false := by simp [hs, hl]
    have herase : unmarked (q.modifyStmt s fun x => { x with live := true }) =
        (((Finset.range q.stmts.size).filter fun x => (q.stmt x).live = false).erase s).card := by
      rw [unmarked, Program.modifyStmt, Array.size_modify, ← Program.modifyStmt]
      congr 1
      ext x
      simp only [Finset.mem_filter, Finset.mem_erase, ← Bool.not_eq_true, hlive, not_or]
      exact ⟨fun h => ⟨h.2.2, h.1, h.2.1⟩, fun h => ⟨h.2.1, h.2.2, h.1⟩⟩
    have hpos := Finset.card_pos.mpr ⟨s, hmem⟩
    rw [herase, Finset.card_erase_of_mem hmem, List.length_cons, unmarked]
    omega

theorem marked_marks {list : List StmtId} (hlt : ∀ s ∈ list, s < q.stmts.size) :
    Marked list q work (list.foldl mark (q, work)) := by
  induction list generalizing q work with
  | nil => exact ⟨rfl, fun s hs => hs.elim id nofun, fun _ => .inl, fun _ => id, Nat.le_refl _⟩
  | cons x list ih =>
    have hfirst : Marked [x] q work (mark (q, work) x) := marked_mark (hlt x List.mem_cons_self)
    have hrest : Marked list _ _ (list.foldl mark (mark (q, work) x)) :=
      ih fun s hs => hfirst.size ▸ hlt s (List.mem_cons_of_mem _ hs)
    refine ⟨hrest.size.trans hfirst.size, fun s hs => hrest.live s ?_, fun s hs => ?_,
      fun s hs => hrest.kept s (hfirst.kept s hs), hrest.count.trans hfirst.count⟩
    · rcases hs with hs | hs
      · exact .inl (hfirst.live s (.inl hs))
      · rcases List.mem_cons.mp hs with rfl | hs
        · exact .inl (hfirst.live s (.inr List.mem_cons_self))
        · exact .inr hs
    · rcases hrest.fresh s hs with hs | hs
      · exact (hfirst.fresh s hs).imp_right (hrest.kept s)
      · exact .inr hs

/-- What live statements depend on is live, except where they are still at work. -/
def Pending (p : Program) (w : Writes) (q : Program) (work : List StmtId) : Prop :=
  ∀ s, (q.stmt s).live = true → s ∈ work ∨ ∀ d ∈ dependencies p w (p.stmt s), (q.stmt d).live = true

/-- With enough rounds the worklist runs empty. -/
theorem pending_propagate (hp : p.Coherent) (hw : ∀ t x, x ∈ w.getD t [] → (p.stmt x).effects ≠ [])
    (hlt : ∀ s d, d ∈ dependencies p w (p.stmt s) → d < p.stmts.size) (fuel : Nat) (hq : Enlivens p q)
    (hwork : Pending p w q work) (hfuel : unmarked q + work.length ≤ fuel) :
    (∀ s, (q.stmt s).live = true → ((propagate w fuel (q, work)).stmt s).live = true) ∧
      Pending p w (propagate w fuel (q, work)) [] := by
  induction fuel generalizing q work with
  | zero =>
    obtain rfl : work = [] := List.eq_nil_of_length_eq_zero (by omega)
    exact ⟨fun _ => id, hwork⟩
  | succ fuel ih =>
    cases work with
    | nil => exact ⟨fun _ => id, hwork⟩
    | cons s work =>
      obtain ⟨r, hr, hlive, hstep⟩ := exists_propagate_cons (w := w) hq fuel s work
      have hmarks : Marked (dependencies p w (p.stmt s)) r work _ :=
        marked_marks fun d hd => (hlt s d hd).trans_eq (hq.trans hr).reshapes.stmts_size.symm
      have hmarkable : ∀ d, d ∈ dependencies p w (p.stmt s) → Markable r d := fun d hd =>
        (hq.trans hr).markable (markable_of_mem_dependencies hp hw hd)
      have hnext := (hq.trans hr).trans (enlivens_marks hmarkable work)
      rw [hstep]
      generalize (dependencies p w (p.stmt s)).foldl mark (r, work) = next at hmarks hnext ⊢
      have hkept (x : StmtId) (hx : (q.stmt x).live = true) : (next.1.stmt x).live = true :=
        hmarks.live x (.inl ((hlive x).trans hx))
      have hpending : Pending p w next.1 next.2 := by
        intro x hx
        rcases hmarks.fresh x hx with hx | hx
        · rcases hwork x ((hlive x).symm.trans hx) with hx | hx
          · rcases List.mem_cons.mp hx with rfl | hx
            · exact .inr fun d hd => hmarks.live d (.inr hd)
            · exact .inl (hmarks.kept x hx)
          · exact .inr fun d hd => hkept d (hx d hd)
        · exact .inl hx
      have hcount : unmarked r = unmarked q := by simp only [unmarked, hlive, hr.reshapes.stmts_size]
      have hleft : unmarked next.1 + next.2.length ≤ fuel := by
        have hle := hmarks.count
        rw [List.length_cons] at hfuel
        omega
      obtain ⟨hlast, hclosed⟩ := ih hnext hpending hleft
      exact ⟨fun x hx => hlast x (hkept x hx), hclosed⟩

/-! ## The smallest closed set -/

/-- The roots: what leaves a block, a loop that is not eliminated, an effect on anything but a fresh object or
array. -/
def Root (p : Program) (s : StmtId) : Prop :=
  match (p.stmt s).action with
  | .returnValue _ | .throwValue _ | .breakLoop _ | .continueLoop _ => True
  | .loop l => l.rounds ≠ .none
  | _ => ∃ e ∈ (p.stmt s).effects, ∀ t, e = .mutation (.temp t) → p.isConstruction t = false

/-- What a live statement needs. -/
inductive Needs (p : Program) (s : StmtId) : StmtId → Prop
  | container {d : StmtId} (h : (p.stmt s).parent = some d) : Needs p s d
  /-- The definition of a temp that is read. -/
  | definition {t : TempId} {d : StmtId} (ht : .temp t ∈ reads p (p.stmt s).action)
      (h : p.definition? t = some d) : Needs p s d
  /-- The merging temp in which a loop stores keys or values. -/
  | each {t : TempId} {d : StmtId} (ht : (p.stmt s).action.each? = some t) (h : p.definition? t = some d) :
      Needs p s d
  /-- The merging temp that is copied into. -/
  | merge {t : TempId} {v : Option Operand} {d : StmtId} (ht : (p.stmt s).action = .copy t v)
      (h : p.definition? t = some d) : Needs p s d
  | copy {d : StmtId} (hd : d ∈ (p.stmt s).action.copies) (h : (p.block (p.stmt d).block).dead = false) :
      Needs p s d
  /-- A mutation of the fresh object or array that is defined. -/
  | mutation {t : TempId} {d : StmtId} {b : BlockId} (ht : (p.stmt s).action.temp? = some t)
      (hc : p.isConstruction t = true) (hb : p.Active b) (hd : d ∈ (p.block b).stmts)
      (h : .mutation (.temp t) ∈ (p.stmt d).effects) : Needs p s d

/-- A set of statements that holds the roots of the active blocks and what its members need. -/
structure Closed (p : Program) (C : Set StmtId) : Prop where
  root : ∀ b s, p.Active b → s ∈ (p.block b).stmts → Root p s → s ∈ C
  needs : ∀ s d, s ∈ C → Needs p s d → d ∈ C

theorem isRoot_iff : isRoot p (p.stmt s) = true ↔ Root p s := by
  have hwritten (e : Effect) : (written? p e).isNone = true ↔
      ∀ t, e = .mutation (.temp t) → p.isConstruction t = false := by
    unfold written?
    split <;> simp_all
  have hio (h : hasIo (p.stmt s).effects = true) : ∃ e ∈ (p.stmt s).effects,
      ∀ t, e = .mutation (.temp t) → p.isConstruction t = false := ⟨.io, List.contains_iff_mem.mp h, nofun⟩
  unfold isRoot Root
  cases (p.stmt s).action <;> simp [hwritten, or_iff_right_of_imp hio]

theorem mem_dependencies_iff_needs (hp : p.Structured) :
    d ∈ dependencies p (writes p p.allStmts) (p.stmt s) ↔ Needs p s d := by
  rw [mem_dependencies_iff]
  constructor
  · rintro (h | ⟨t, h, ht | ht | ⟨v, ht⟩⟩ | ⟨hd, h⟩ | ⟨t, ht, h⟩)
    · exact .container h
    · exact .definition ht h
    · exact .each ht h
    · exact .merge ht h
    · exact .copy hd h
    · obtain ⟨hmem, he, hc⟩ := mem_writes_iff.mp h
      obtain ⟨b, hb, hd⟩ := active_of_mem_allStmts hmem
      exact .mutation ht hc hb hd he
  · rintro (h | ⟨ht, h⟩ | ⟨ht, h⟩ | ⟨ht, h⟩ | ⟨hd, h⟩ | ⟨ht, hc, hb, hd, h⟩)
    · exact .inl h
    · exact .inr (.inl ⟨_, h, .inl ht⟩)
    · exact .inr (.inl ⟨_, h, .inr (.inl ht)⟩)
    · exact .inr (.inl ⟨_, h, .inr (.inr ⟨_, ht⟩)⟩)
    · exact .inr (.inr (.inl ⟨hd, h⟩))
    · exact .inr (.inr (.inr ⟨_, ht, mem_writes_iff.mpr ⟨(mem_allStmts_iff hp).mpr ⟨_, hb, hd⟩, h, hc⟩⟩))

/-- The rules that the pass relies on: those of paths, what a statement refers to is there, and only
statements of active blocks are live. -/
structure Sound (p : Program) : Prop extends p.Structured where
  parent_lt : ∀ s d, (p.stmt s).parent = some d → d < p.stmts.size
  copy_lt : ∀ s d, d ∈ (p.stmt s).action.copies → d < p.stmts.size
  live : ∀ s, (p.stmt s).live = true → ∃ b, p.Active b ∧ s ∈ (p.block b).stmts

/-- What statements refer to is there in the program of a script, whatever passes have run over it. -/
theorem sound_applyAll {x : Script} (h : x.lower = .ok p) (forSize : Bool) (passes : List Pass)
    (hq : q = Pass.applyAll forSize passes p)
    (hlive : ∀ s, (q.stmt s).live = true → ∃ b, q.Active b ∧ s ∈ (q.block b).stmts) : Sound q := by
  subst hq
  obtain ⟨r, names, t, -, ht, rfl⟩ := x.lower_ok h
  have hp := Lowering.script_built ht
  have hr := Pass.reshapes_applyAll forSize passes hp.structured.toCoherent
  refine ⟨hp.structured.of_reshapes hr, fun s d hd => ?_, fun s d hd => ?_, hlive⟩
  · rw [hr.parent] at hd
    exact hr.stmts_size ▸ (hp.stmtOwner s d hd).lt
  · exact hr.stmts_size ▸ (hp.copies s d (hr.copies s hd)).1

theorem Sound.lt_of_needs (hp : Sound p) (h : Needs p s d) : d < p.stmts.size := by
  have hdefined {t : TempId} {d : StmtId} (h : p.definition? t = some d) : d < p.stmts.size := by
    refine Nat.lt_of_not_le fun hge => ?_
    have ht := hp.definition t d h
    rw [p.stmt_of_ge d hge] at ht
    cases ht
  cases h with
  | container h => exact hp.parent_lt s d h
  | definition _ h | each _ h | merge _ h => exact hdefined h
  | copy hd => exact hp.copy_lt s d hd
  | mutation _ _ _ hd => exact (hp.home _ d hd).1

/-- The live statements hold the roots and what their members need. -/
theorem Sound.closed_run (hp : Sound p) : Closed p {s | ((run p).stmt s).live = true} := by
  obtain ⟨q, hq, hstart, hrun⟩ := exists_run_eq p
  have hnone (s : StmtId) : ¬ (q.stmt s).live = true := fun hs =>
    ((hstart s).mp hs).2 ((mem_allStmts_iff hp.toStructured).mpr (hp.live s ((hstart s).mp hs).1))
  have hw (t : TempId) (x : StmtId) (hx : x ∈ (writes p p.allStmts).getD t []) : (p.stmt x).effects ≠ [] :=
    List.ne_nil_of_mem (mem_writes_iff.mp hx).2.1
  have hroots : Marked (p.allStmts.filter fun s => isRoot p (p.stmt s)) q [] _ := marked_marks fun s hs => by
    obtain ⟨b, -, hb⟩ := active_of_mem_allStmts (List.mem_filter.mp hs).1
    exact (hp.home b s hb).1.trans_eq hq.reshapes.stmts_size.symm
  have hmarkable (s : StmtId) (hs : s ∈ p.allStmts.filter fun s => isRoot p (p.stmt s)) : Markable q s :=
    hq.markable (markable_of_isRoot (List.mem_filter.mp hs).2)
  have hcount : unmarked q ≤ p.stmts.size :=
    (Finset.card_filter_le _ _).trans_eq (by rw [Finset.card_range, hq.reshapes.stmts_size])
  obtain ⟨hkept, hpending⟩ := pending_propagate hp.toCoherent hw
    (fun s d hd => hp.lt_of_needs ((mem_dependencies_iff_needs hp.toStructured).mp hd)) (p.stmts.size + 1)
    (hq.trans (enlivens_marks hmarkable [])) (fun s hs => .inl ((hroots.fresh s hs).resolve_left (hnone s)))
    (hroots.count.trans (Nat.le_succ_of_le hcount))
  rw [hrun]
  refine ⟨fun b s hb hs hr => hkept s (hroots.live s (.inr (List.mem_filter.mpr ⟨?_, isRoot_iff.mpr hr⟩))),
    fun s d hs hd => ?_⟩
  · exact (mem_allStmts_iff hp.toStructured).mpr ⟨b, hb, hs⟩
  · exact (hpending s hs).resolve_left (by simp) d ((mem_dependencies_iff_needs hp.toStructured).mpr hd)

/-- The pass marks the smallest set of statements that holds the roots of the active blocks and what its
members need. -/
theorem isLeast_live (hp : Sound p) : IsLeast {C | Closed p C} {s | ((run p).stmt s).live = true} := by
  refine ⟨hp.closed_run, fun C hC s hs => ?_⟩
  have hmem {x : StmtId} (hx : x ∈ p.allStmts) (hr : isRoot p (p.stmt x) = true) : x ∈ C := by
    obtain ⟨b, hb, hx⟩ := active_of_mem_allStmts hx
    exact hC.root b x hb hx (isRoot_iff.mp hr)
  rcases (enlivens_run (K := (· ∈ C)) hp.toCoherent (fun x => hmem) fun x d hx hd =>
    hC.needs x d hx ((mem_dependencies_iff_needs hp.toStructured).mp hd)).2 s hs with h | ⟨hl, hn⟩
  · exact h
  · exact absurd ((mem_allStmts_iff hp.toStructured).mpr (hp.live s hl)) hn

/-- A function that returns an object behind a branch that never runs and would write to it. -/
def deadWrite : String :=
  "function h(y) \x7b var o = \x7b\x7d; var x = +y; if (false) o.a = x; return o; \x7d"

/-- Before the branch is eliminated the write is live. -/
theorem isLeast_live_deadWrite : ∃ x p, Script.parse "" deadWrite = .ok x ∧ x.lower = .ok p ∧ Sound p ∧
    ((run p).stmt 5).live = true ∧ IsLeast {C | Closed p C} {s | ((run p).stmt s).live = true} := by
  obtain ⟨x, p, hx, hp, hall⟩ := Script.exists_lower deadWrite
    (fun _ p => (∀ s < p.stmts.size, s ∈ p.allStmts) ∧ ((run p).stmt 5).live = true) (by decide +kernel)
  obtain ⟨hall, hlive⟩ := of_decide_eq_true hall
  have hsound : Sound p := sound_applyAll hp false [] rfl fun s hs =>
    active_of_mem_allStmts (hall s (Nat.lt_of_not_le fun hge => by
      rw [p.stmt_of_ge s hge] at hs
      cases hs))
  exact ⟨x, p, hx, hp, hsound, hlive, isLeast_live hsound⟩

/-- Behind it the object is still live, but not the write in the dead block, nor what only it needs. -/
theorem live_deadWrite : ∃ x p, Script.parse "" deadWrite = .ok x ∧ x.lower = .ok p ∧
    let q := Branches.run p
    (∀ s < q.stmts.size, (q.block (q.stmt s).block).dead = true → (q.stmt s).live = false) ∧
      (q.stmt 2).action.temp? = some ⟨1, 2⟩ ∧ q.isConstruction ⟨1, 2⟩ = true ∧
      .mutation (.temp ⟨1, 2⟩) ∈ (q.stmt 5).effects ∧
      ((run q).stmt 2).live = true ∧ ((run q).stmt 5).live = false ∧ ((run q).stmt 3).live = false := by
  refine (Script.exists_lower deadWrite (fun _ p => decide _) ?_).imp fun x => Exists.imp fun p h =>
    ⟨h.1, h.2.1, of_decide_eq_true h.2.2⟩
  decide +kernel

end ScriptOptimizer.Liveness
