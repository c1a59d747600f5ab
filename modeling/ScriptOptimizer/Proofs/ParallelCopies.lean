import ScriptOptimizer.Proofs.LoopConditions
import ScriptOptimizer.Proofs.WatchedLowering

/-!
# Copies at once

The statements that the end of a round of a loop adds are one parallel assignment: whatever the carried
bindings stand for, and whichever of their merging temps occur among their values, every merging temp
gets the value that its binding had before the first of these statements. No other register that was
there changes.
-/

namespace ScriptOptimizer

namespace Lowering

open IR

variable {strict : Prop} {names : Names} {c : Site} {s s' t : State} {pos : Position} {frame : Frame}

/-! ## The end of a round can be lowered -/

variable {carried : List (BindingId × TempId)}

theorem hold_total (c : Site) (v : Operand) (pos : Position) (names : Names) (s : State) :
    ∃ x t, hold c v pos names s = .ok (x, t) := ⟨_, _, temp_apply c (.operand v) pos⟩

theorem pendingCopies_total (c : Site) (pos : Position) (merges : List TempId)
    (carried : List (BindingId × TempId)) (names : Names) (s : State) :
    ∃ copies t, pendingCopies c pos merges carried names s = .ok (copies, t) := by
  induction carried generalizing s with
  | nil => exact ⟨[], s, rfl⟩
  | cons e rest ih =>
    obtain ⟨b, m⟩ := e
    have hvalue : value? b names s = .ok (s.values.getD b none, s) := rfl
    unfold pendingCopies
    rw [bind_run hvalue]
    cases s.values.getD b none with
    | none => exact ih s
    | some v =>
      dsimp only
      split
      · exact ih s
      · split
        · obtain ⟨x, t, hx⟩ := hold_total c v pos names s
          obtain ⟨copies, u, hu⟩ := ih t
          exact ⟨_, u, by rw [bind_run hx, bind_run hu]; rfl⟩
        · obtain ⟨copies, u, hu⟩ := ih s
          exact ⟨_, u, by rw [bind_run (t := s) (a := v) rfl, bind_run hu]; rfl⟩

theorem copyInto_total {m : TempId} (hm : s.program.isMerge m = true) (v : Option Operand) (b : BlockId)
    (q : Option StmtId) (pos : Position) : ∃ x t, copyInto m v b q pos names s = .ok (x, t) := by
  obtain ⟨d, w, cs, k, hd, ha⟩ := Program.isMerge_iff.mp hm
  have hv : s.program.value? m = some (.merge cs) := by
    rw [Program.value?, Program.definer?, hd, Option.map_some, ha]
  obtain ⟨t, ht, hp⟩ : ∃ t, escape v.toList names s = .ok ((), t) ∧ t.program = s.program := ⟨_, rfl, rfl⟩
  have hprogram : program names t = .ok (t.program, t) := rfl
  unfold copyInto
  rw [bind_run ht, bind_run hprogram, hp]
  rw [hd, hv]
  exact ⟨_, _, rfl⟩

/-- Copies into merging temps at the cursor can be made. -/
theorem copies_total {copies : List Move} (pos : Position) (hr : Ready strict names c s)
    (hm : ∀ m ∈ copies.map Prod.fst, s.program.isMerge m = true) :
    ∃ t, (copies.forM fun (m, v) => do append s.block (← copyInto m (some v) s.block c.parent pos)) names s =
      .ok ((), t) := by
  generalize hb : s.block = b
  induction copies generalizing s with
  | nil => exact ⟨s, rfl⟩
  | cons e rest ih =>
    obtain ⟨m, v⟩ := e
    obtain ⟨x, t, ht⟩ : ∃ x t, copyInto m (some v) s.block c.parent pos names s = .ok (x, t) :=
      copyInto_total (hm m List.mem_cons_self) _ _ _ _
    have happend : append s.block x names t = .ok ((), { t with program := t.program.place s.block x }) := rfl
    obtain ⟨hr', hmoves⟩ := hr.copy ht happend
    have hcursor : t.block = s.block := by
      obtain ⟨-, d, u, l, cs, tracking, -, -, rfl⟩ := copyInto_ok ht
      rfl
    obtain ⟨u, hu⟩ := ih hr' (fun n hn => hmoves.program.isMerge (hm n (List.mem_cons_of_mem _ hn)))
      (hcursor.trans hb)
    subst hb
    refine ⟨u, ?_⟩
    change ((do append s.block (← copyInto m (some v) s.block c.parent pos)) >>= fun _ =>
      rest.forM fun (m, v) => do append s.block (← copyInto m (some v) s.block c.parent pos)) names s = _
    rw [bind_run ((bind_run ht).trans happend)]
    exact hu

/-- The end of a round can always be lowered. -/
theorem sync_total (hr : Ready strict names c s)
    (hs : Supplied s.program s.values)
    (hm : ∀ m ∈ frame.carried.map Prod.snd, s.program.isMerge m = true) (pos : Position) :
    ∃ t, sync c frame pos names s = .ok ((), t) := by
  obtain ⟨copies, t, ht⟩ := pendingCopies_total c pos (frame.carried.map Prod.snd) frame.carried names s
  obtain ⟨hr', hmoves⟩ := hr.pendingCopies ht
  obtain ⟨-, hsub, -⟩ := pendingCopies_ok (p := s.program) hr hs ht
  obtain ⟨u, hu⟩ := copies_total pos hr' fun m hm' => hmoves.program.isMerge (hm m (hsub.subset hm'))
  have hget : (get : Lower State) names t = .ok (t, t) := rfl
  unfold sync
  rw [bind_run ht, bind_run hget, bind_run hu]
  exact ⟨_, reload_apply frame.carried⟩

/-! ## Where the parts of branches and loops start -/

theorem Provided.startFirst (h : Provided names c s) (cond : Operand) (pos : Position) :
    Provided names (c.inArm s.program.stmts.size)
      ((s.emitBranch c cond pos).startArm c s.program.stmts.size) := by
  obtain ⟨howned, -, hready⟩ := h.ready.startFirst cond pos
  exact (Backed.of_extends howned.program h.supplied).provided h rfl hready

theorem Provided.startSecond {cond : Operand} {H : ScriptOptimizer.Stmt → Prop} {k : Option Frame}
    (h : Provided names c s) (ht : Provided names (c.inArm s.program.stmts.size) t)
    (hg : Growth names H (Mergeable k ((s.emitBranch c cond pos).startArm c s.program.stmts.size))
      ((s.emitBranch c cond pos).startArm c s.program.stmts.size) t)
    (tracked : List BindingId) :
    Provided names (c.inArm s.program.stmts.size)
      (((s.emitBranch c cond pos).leaveArm t (tracked.zip (s.valuesOf tracked))).startArm c
        s.program.stmts.size) := by
  obtain ⟨howned, -, -⟩ := h.ready.startFirst cond pos
  have hstart : Backed s.program ((s.emitBranch c cond pos).startArm c s.program.stmts.size) :=
    .of_extends howned.program h.supplied
  have hbacked := ((hstart.of_continues ⟨ht, hg⟩).leaveArm (r := s.emitBranch c cond pos) h.supplied
    tracked).startArm (c := c) s.program.stmts.size
  exact hbacked.provided h rfl (h.ready.startSecond ht.ready.passed hg.moves _)

/-- Every loop may be lowered. -/
theorem loopsIf_true (n : Node) : LoopsIf (fun _ => True) n := by
  cases n with
  | stmt y => exact fun _ => trivial
  | _ => trivial

/-- Code can be lowered wherever it could be before. -/
theorem lowersExprs_true (names : Names) (fuel : Nat) :
    LowersExprs names (fun _ => True) (expr fuel) (fun _ => True) := by
  intro c e s x s' _ hi hrun
  obtain ⟨k, hx⟩ := (((conditionLaw names fun _ => True).obey_parts fuel).value c e s
    (fun v _ => loopsIf_true v.node) hi).gives hrun
  exact ⟨⟨k.inv, k.step.growth hi⟩, hx⟩

theorem continues_stmt {fuel : Nat} {y : ScriptOptimizer.Stmt} (hl : c.loop = some frame)
    (hi : Provided names c t) (hrun : stmt fuel c y names t = .ok ((), s')) :
    Continues names (fun _ => True) c (some frame) t s' := by
  obtain ⟨k, -⟩ := (((conditionLaw names fun _ => True).obey_parts fuel).stmt c y t
    (fun v _ => loopsIf_true v.node) (fun _ _ _ _ v _ => loopsIf_true v.node) hi).gives hrun
  exact ⟨k.behind, hl ▸ k.pass.growth hi⟩

/-- The bindings that a loop carries get their merging temps. -/
private theorem Provided.carries {bs : List BindingId} (h : Provided names c s)
    (henter : bs.mapM (enterBinding c pos) names s = .ok (carried, s')) (hframe : frame.carried = carried) :
    Provided names c s' ∧ Carries (Mergeable none s) s' frame := by
  obtain ⟨hr, hm⟩ := h.ready.enterLoop henter
  obtain ⟨k, hc⟩ : Continues names (fun _ => True) c none s s' ∧
      Carries (Mergeable none s) s' frame :=
    h.enterLoop hr hm (enterLoop_enters h.ready henter) hframe
  exact ⟨k.provided, hc⟩

/-- Test and body of a loop with a condition start where code can be lowered. -/
theorem Provided.startsLoop {fuel : Nat} {x body : ScriptOptimizer.Stmt} {test : Expr} {behind : Bool}
    {update : Option Expr} {bs : List BindingId} (h : Provided names c s) (hx : x.test? = some test)
    (henter : bs.mapM (enterBinding c x.pos) names { s with tracking := {} } = .ok (carried, s'))
    (hframe : frame = { loop := s'.program.stmts.size, carried, update, head := c.scope }) :
    (conditionLaw names fun _ => True).StartsLoop fuel c frame behind test body x.pos
      s'.program.blocks.size
      (s'.emitLoop c (testedAction behind s'.program.blocks.size (.literal .undefined)) [] x.pos 2) := by
  have h0 : Continues names (fun _ => True) c none s { s with tracking := {} } := h.tracking {}
  obtain ⟨h1, hc⟩ : Provided names c s' ∧ Carries (Mergeable none s) s' frame :=
    h0.provided.carries henter (by rw [hframe])
  have hloop : frame.loop = s'.program.stmts.size := by rw [hframe]
  obtain ⟨i1, hblocks⟩ := h1.ready.emitTested behind x.pos
  have hstart : Filling names (fun _ => True) (Mergeable none s) s' x.pos (· = s'.program.stmts.size)
      (fun d => s'.program.blocks.size ≤ d ∧ d < s'.program.blocks.size + 2)
      (s'.emitLoop c (testedAction behind s'.program.blocks.size (.literal .undefined)) [] x.pos 2) :=
    h1.emitLoop (by nofun) (.inr rfl)
  obtain ⟨hkeeps, hkeeps'⟩ := keeps_structure names fuel
  have hfirst : s'.program.blocks.size ≤ s'.program.blocks.size ∧
      s'.program.blocks.size < s'.program.blocks.size + 2 := by omega
  have hsecond : s'.program.blocks.size ≤ s'.program.blocks.size + 1 ∧
      s'.program.blocks.size + 1 < s'.program.blocks.size + 2 := by omega
  have htest := i1.ready hloop (hblocks _ (.inl rfl)).1
  have hbody := i1.ready hloop (hblocks _ (.inr rfl)).1
  constructor
  case first_test => exact hstart.provided hc htest
  case first_body => exact hstart.provided hc hbody
  case second_body =>
    intro t ht
    obtain ⟨i2, htail, -⟩ := i1.behindTest hloop hblocks (Nat.le_refl _)
      (fun t x t' ht hrun => ht.testStep hkeeps trivial hrun) ht
    have hfilled : Filling names (fun _ => True) (Mergeable none s) s' x.pos (fun _ => False)
        (· = s'.program.blocks.size + 1) t := hstart.test trivial hx trivial h1.ready.lt hc hloop
      (lowersExprs_true names fuel) hfirst (by rintro d rfl; exact ⟨hsecond, Nat.succ_ne_self _⟩) htest ht
    exact hfilled.provided hc (i2.ready hloop htail)
  case second_test =>
    intro t ht
    obtain ⟨i2, htail, -⟩ := i1.behindBody hloop hblocks (Nat.le_refl _)
      (fun t t' ht hrun => ht.bodyStep hkeeps (fun _ _ => trivial) (hkeeps' _ _) hrun) ht
    have hfilled : Filling names (fun _ => True) (Mergeable none s) s' x.pos (· = s'.program.stmts.size)
        (· = s'.program.blocks.size) t := hstart.body hc (lowersExprs_true names fuel) (fun _ _ => trivial)
      (fun t t' hi hrun => continues_stmt rfl hi hrun) hsecond
      (by rintro d rfl; exact ⟨hfirst, (Nat.succ_ne_self _).symm⟩) hbody ht
    exact (hfilled.reloaded hc).provided hc (i2.ready hloop htail)

/-- The body of a loop over keys or values starts where code can be lowered. -/
theorem Provided.startsBody {of : Bool} {name : String} {object : Operand} {each : Place} {assigned : NameSet}
    {r : Option BindingId} {declared : Array Bool} {bs : List BindingId} (h : Provided names c s)
    (henter : bs.mapM (enterBinding c pos) names { s with declared, tracking := {} } = .ok (carried, s'))
    (hframe : frame = { loop := s'.program.stmts.size, carried, update := none, head := c.scope })
    (heach : each = placeOfEach names name r carried) (hassigned : s'.program.assigned.Within assigned) :
    Provided names (c.inLoop frame) { { s' with program := { s'.program with assigned } }.emitLoop c
        (.loop { head := .iterated of each object, body := s'.program.blocks.size })
        (if each.isNamed then [.mutation each] else []) pos 1 with
          block := s'.program.blocks.size, terminated := false } := by
  have h0 : Continues names (fun _ => True) c none s { s with declared, tracking := {} } :=
    h.of_program rfl rfl (Nat.le_refl _) h.supplied
  obtain ⟨h1, hc1⟩ : Provided names c s' ∧ Carries (Mergeable none s) s' frame :=
    h0.provided.carries henter (by rw [hframe])
  obtain ⟨hr, hm⟩ := h1.ready.setAssigned hassigned
  have h2 : Continues names (fun _ => True) c none s' { s' with program := { s'.program with assigned } } :=
    h1.of_emits hr.toPlaced hm (.of_eq rfl rfl rfl (fun _ => rfl) fun _ => rfl) nofun
      (h1.supplied.mono hm.program.definition)
  obtain ⟨i, htails⟩ := hr.emitLoop
    (.loop { head := .iterated of each object, body := s'.program.blocks.size })
    (if each.isNamed then [.mutation each] else []) 1 pos rfl
    (List.cons_ne_nil _ _) (by simp [Action.blocks, Loop.blocks]) (fun b hb => by
      cases List.mem_singleton.mp hb
      exact ⟨Nat.le_refl _, Nat.lt_succ_self _⟩)
  have hstart : Filling names (fun _ => True) (Mergeable none s)
      { s' with program := { s'.program with assigned } } pos
      (fun _ => False) (fun d => s'.program.blocks.size ≤ d ∧ d < s'.program.blocks.size + 1)
      ({ s' with program := { s'.program with assigned } }.emitLoop c
        (.loop { head := .iterated of each object, body := s'.program.blocks.size })
        (if each.isNamed then [.mutation each] else []) pos 1) :=
    h2.provided.emitLoop (fun m hm => (hc1.carried m (hframe ▸ mem_of_placeOfEach heach hm)).2.2) (.inl rfl)
  exact hstart.provided (hc1.setAssigned hm) (i.ready (by rw [hframe])
    (htails _ (Nat.le_refl _) (Nat.lt_succ_self _)).1)

/-- Code can be lowered wherever the parts of branches and loops start. -/
theorem conditionLaw_startsParts (names : Names) :
    (conditionLaw names fun _ => True).StartsParts where
  first h _ := h.startFirst _ _
  second tracked h _ ht hp := h.startSecond ht (hp.growth (h.startFirst _ _)) tracked
  testedLoop _ hx _ _ _ h henter hframe := h.startsLoop hx henter hframe
  iteratedLoop _ _ _ h henter hframe heach hassigned := h.startsBody henter hframe heach hassigned

/-! ## One parallel assignment -/

/-- The end of a round of the loop around a site can be lowered, and the statements that it adds are moves
that act as one parallel assignment: the merging temp of every carried binding gets the value that the
binding had, and no other register that is there changes. -/
def AssignsAtOnce (names : Names) (c : Site) (s : State) : Prop :=
  ∀ frame, c.loop = some frame → ∀ (scope : ScopeId) (depth : Nat) (pos : Position),
    ∃ t ids, sync { c with scope, depth } frame pos names s = .ok ((), t) ∧ Emits s t ids ∧
      (∀ y ∈ ids, (t.program.stmt y).action.move?.isSome = true) ∧
      ∀ (α : Type) (other : Operand → α) (regs : TempId → α),
        (∀ b m v, (b, m) ∈ frame.carried → s.values.getD b none = some v →
          moved other regs (t.program.movesOf ids) m = v.read other regs) ∧
        ∀ m, s.program.Known (.temp m) →
          (∀ b, (b, m) ∈ frame.carried → s.values.getD b none = none) →
          moved other regs (t.program.movesOf ids) m = regs m

theorem Provided.assignsAtOnce (h : Provided names c s) : AssignsAtOnce names c s := by
  intro frame hframe scope depth pos
  have h' : Provided names { c with scope, depth } s := h.of_site rfl rfl rfl
  have hmerges := h'.carried frame hframe
  obtain ⟨t, ht⟩ := sync_total h'.ready h'.supplied hmerges pos
  obtain ⟨ids, hsync, -, hmoves⟩ := sync_ok h'.ready h'.supplied ht
  obtain ⟨hsurvives, hmoved⟩ := hmoves (h'.distinct frame hframe) fun m hm =>
    Program.known_of_isMerge (hmerges m hm)
  refine ⟨t, ids, ht, hsync.emits, hsync.isMove, fun α other regs => ⟨fun b m v hb hv => ?_, ?_⟩⟩
  · exact hmoved b m v hb hv α other regs
  · intro m hm hnone
    refine (hsurvives (.temp m) hm).mpr (fun w hw y hy v hv => ?_) α other regs
    cases hw
    obtain ⟨b, x, hb, hx, -⟩ := (hsync.origin m).mp ⟨y, hy, v, hv⟩
    rw [hnone b hb] at hx
    cases hx

/-- The ends of rounds at the points of lowering. -/
def watchRounds (names : Names) : Watch where
  before _ j s := AssignsAtOnce names j.site s
  behind _ j s := AssignsAtOnce names j.site s

end Lowering

open Lowering

/-- At every point of the lowering of a script the end of a round of the loop around it is one parallel
assignment. Rounds end at such points: behind the test, the body or the update of a loop, and where a
jump starts. -/
theorem Script.lower_assignsAtOnce (x : Script) (stop : Failure) :
    x.lowerWatched stop watchRounds = x.lower := by
  refine Script.lowerWatched_eq fun r names _ => ⟨conditionLaw names fun _ => True,
    conditionLaw_startsParts names, ?_, ?_⟩
  · exact {
      value := fun _ h => Provided.assignsAtOnce h
      stmt := fun _ _ h => Provided.assignsAtOnce h
      function := fun _ h => Provided.assignsAtOnce h
      value_behind := Provided.assignsAtOnce
      stmt_behind := Provided.assignsAtOnce
      function_behind := Provided.assignsAtOnce }
  · exact ⟨provided_ofScript names, fun _ _ v _ => loopsIf_true v.node, fun _ _ _ => trivial⟩

end ScriptOptimizer
