import ScriptOptimizer.Optimize.Pipeline
import ScriptOptimizer.Proofs.PassSteps

/-!
# Passes keep the structure

Every pass changes a program in ways that keep the rules of its structure.
-/

namespace ScriptOptimizer

open IR Program

variable {p : Program}

variable {q r : Program} {v : Value} {b : BlockId} {gone list : List StmtId} {st : State}

/-! ## Simplification -/

namespace Simplify

theorem copies_fold (forSize : Bool) (t : TempId) (v : Value) (m : Placement) :
    (Action.define t (fold forSize p v) m).copies ⊆ (Action.define t v m).copies := by
  unfold fold
  split
  · exact List.nil_subset _
  · exact List.Subset.refl _

/-- Simplifying a live statement is a step. -/
theorem reshapes_stmt (forSize : Bool) (s : StmtId) (hl : (p.stmt s).live = true) :
    p.Reshapes (stmt forSize s p) := by
  refine .modifyStmt_of_live ?_ hl
  have hmap : (p.stmt s).Alike
      { p.stmt s with action := (p.stmt s).action.mapOperands (resolve forSize p) } :=
    .mapOperands _ rfl rfl rfl
  dsimp only
  split
  · next t v m ha =>
    rw [ha] at hmap
    exact ⟨⟨rfl, rfl, hmap.blocks, hmap.endsBlock, hmap.isLoop, hmap.jump,
      List.Subset.trans (copies_fold forSize t v m) hmap.copies⟩, hmap.temp⟩
  · next v ha =>
    rw [ha] at hmap
    exact ⟨⟨rfl, rfl, hmap.blocks, hmap.endsBlock, hmap.isLoop, hmap.jump, hmap.copies⟩, hmap.temp⟩
  · next o k v ha =>
    rw [ha] at hmap
    exact ⟨⟨rfl, rfl, hmap.blocks, hmap.endsBlock, hmap.isLoop, hmap.jump, hmap.copies⟩, hmap.temp⟩
  · exact hmap

theorem reshapes_run (forSize : Bool) (hp : p.Coherent) : p.Reshapes (run forSize p) :=
  .visit (fun _ q _ => .refl q) (fun s _ _ hl => reshapes_stmt forSize s hl) hp

end Simplify

/-! ## Known conditions -/

namespace Branches

private theorem reshapes_setRounds {s : StmtId} {l : Loop} (r : Rounds)
    (hs : (p.stmt s).action = .loop l) : p.Reshapes (setRounds s l r p) :=
  .modifyStmt_of_imp (by
    obtain ⟨head, body, rounds⟩ := l
    refine ⟨⟨rfl, rfl, ?_, ?_, ?_, ?_, ?_⟩, ?_⟩ <;> rw [hs]
    · cases head with
      | tested behind => cases behind <;> rfl
      | iterated => rfl
    · rfl
    · rfl
    · rfl
    · exact List.Subset.refl _
    · rfl) id id

/-- Marking a loop is a step. -/
theorem reshapes_loop {s : StmtId} {l : Loop} (hs : (p.stmt s).action = .loop l) :
    p.Reshapes (loop s l p) := by
  unfold loop
  split
  · exact .refl p
  · split
    · exact .refl p
    · split
      · exact .refl p
      · exact reshapes_setRounds _ hs
      · split
        · split
          · exact .refl p
          · exact reshapes_setRounds _ hs
        · split
          · exact (((reshapes_setRounds _ hs).trans
              (.modifyStmt_of_imp (.of_action rfl rfl rfl) (fun _ => rfl) id)).trans (Marks.kill _ _).reshapes).trans
              (Marks.kill _ _).reshapes
          · exact .refl p

/-- Marking a branch is a step. -/
theorem reshapes_branch {s : StmtId} {cond : Operand} {a : BlockId} {b : Option BlockId}
    {known : Option Bool} (hs : (p.stmt s).action = .branch cond a b known) :
    p.Reshapes (branch s cond a b known p) := by
  have hmark : ∀ k, p.Reshapes
      (p.modifyStmt s fun x => { x with action := .branch cond a b k }) := fun k =>
    .modifyStmt_of_imp (by
      refine ⟨⟨rfl, rfl, ?_, ?_, ?_, ?_, ?_⟩, ?_⟩ <;> rw [hs]
      · rfl
      · rfl
      · rfl
      · rfl
      · exact List.Subset.refl _
      · rfl) id id
  unfold branch
  dsimp only
  split
  · exact hmark _
  · cases b with
    | none => exact hmark _
    | some b => exact (hmark _).trans (Marks.kill _ _).reshapes
  · exact (hmark _).trans (Marks.kill _ _).reshapes

theorem reshapes_run (hp : p.Coherent) : p.Reshapes (run p) := by
  refine .visit (fun _ q _ => .refl q) (fun s q _ _ => ?_) hp
  dsimp only [stmt]
  split
  · next h => exact reshapes_branch h
  · next h => exact reshapes_loop h
  · exact .refl q

end Branches

/-! ## The flow graph -/

namespace FlowGraph

variable {R : Program → Program → Prop} {walk : Walk}

/-- What links of blocks and marks of dead ones keep. -/
structure Links (R : Program → Program → Prop) : Prop extends Chains R where
  modifyBlock : ∀ {p : Program} {b : BlockId} {f : Block → Block}, (∀ x : Block, x.Alike (f x)) →
    R p (p.modifyBlock b f)
  kill : ∀ (p : Program) b, R p (p.kill b)

namespace Links

private theorem link (hR : Links R) (source : BlockId) (target : Option BlockId) (weak : Bool) :
    R p (link source target weak p) := by
  cases target with
  | none => exact hR.refl p
  | some target =>
    refine hR.trans (q := p.modifyBlock source fun b => { b with succs := b.succs ++ [⟨target, weak⟩] }) ?_ ?_
    · exact hR.modifyBlock fun x => ⟨rfl, rfl, rfl, rfl, rfl, rfl, id⟩
    · exact hR.modifyBlock fun x => ⟨rfl, rfl, rfl, rfl, rfl, rfl, id⟩

private theorem follow (hR : Links R) (hw : ∀ b q, R q (walk b q).program) (b : BlockId)
    {behind : BlockId → Program → Program} (hb : ∀ c q, R q (behind c q)) : R p (follow walk b behind p) := by
  unfold FlowGraph.follow
  dsimp only
  split
  · exact hR.trans (hw b p) (hb _ _)
  · exact hw b p

private theorem arm (hR : Links R) (hw : ∀ b q, R q (walk b q).program) (source b : BlockId)
    (next : Option BlockId) : R p (arm walk source b next p) :=
  hR.trans (hR.link _ _ _) (hR.follow hw b fun _ _ => hR.link _ _ _)

private theorem branch (hR : Links R) (hw : ∀ b q, R q (walk b q).program) (source a : BlockId)
    (b : Option BlockId) (known : Option Bool) (next : Option BlockId) :
    R p (branch walk source a b known next p) := by
  have hfirst : R p (if known = some false then p else FlowGraph.arm walk source a next p) := by
    split
    · exact hR.refl p
    · exact hR.arm hw source a next
  unfold FlowGraph.branch
  dsimp only
  split
  · exact hfirst
  · split
    · exact hR.trans hfirst (hR.arm hw source _ next)
    · exact hR.trans hfirst (hR.link source next false)

private theorem leave (hR : Links R) (l : Loop) (next : Option BlockId) (last : BlockId) :
    R p (if l.rounds = .infinite then p else FlowGraph.link last next false p) := by
  split
  · exact hR.refl p
  · exact hR.link _ _ _

private theorem loop (hR : Links R) (hw : ∀ b q, R q (walk b q).program) (source : BlockId) (l : Loop)
    (next : Option BlockId) : R p (loop walk source l next p) := by
  unfold FlowGraph.loop
  split
  · exact hR.link _ _ _
  · dsimp only
    split
    · refine hR.trans (hR.link _ _ _) (hR.trans (hR.follow hw _ fun c q => ?_)
        (hR.follow hw _ fun _ _ => hR.link _ _ _))
      exact hR.trans (hR.link _ _ _) (hR.leave l next c)
    · refine hR.trans (hR.link _ _ _) (hR.trans
        (hR.follow hw _ fun _ _ => hR.link _ _ _) (hR.follow hw _ fun c q => ?_))
      refine hR.trans ?_ (hR.leave l next c)
      split
      · exact hR.refl q
      · exact hR.link _ _ _
    · exact hR.trans (hR.trans (hR.link _ _ _) (hR.link _ _ _))
        (hR.follow hw _ fun _ _ => hR.trans (hR.link _ _ _) (hR.link _ _ _))

private theorem continueLoop (hR : Links R) (source : BlockId) (s : StmtId) : R p (continueLoop source s p) := by
  unfold FlowGraph.continueLoop
  split
  · split
    · exact hR.link _ _ _
    · exact hR.trans (hR.link _ _ _) (hR.link _ _ _)
  · exact hR.refl p

private theorem terminator (hR : Links R) (hw : ∀ b q, R q (walk b q).program) (b : BlockId) :
    R p (terminator walk b p).1 := by
  unfold FlowGraph.terminator
  dsimp only
  split
  · exact hR.branch hw _ _ _ _ _
  · exact hR.loop hw _ _ _
  · exact hR.refl p
  · exact hR.refl p
  · exact hR.link _ _ _
  · exact hR.continueLoop _ _
  · exact hR.link _ _ _

private theorem chain (hR : Links R) (fuel : Nat) (b : BlockId) (p : Program) : R p (chain fuel b p).program := by
  induction fuel generalizing b p with
  | zero => exact hR.refl p
  | succ fuel ih =>
    have hfirst := hR.terminator (p := p) ih b
    unfold FlowGraph.chain
    dsimp only
    split
    · exact hR.trans hfirst (ih _ _)
    · exact hfirst

private theorem function (hR : Links R) (p : Program) (f : FuncId) : R p (function p f) := by
  have hclear : R p ((p.function f).blocks.foldl
      (fun q b => q.modifyBlock b fun x => { x with succs := [], preds := [] }) p) :=
    hR.foldl fun q b _ => hR.modifyBlock fun x => ⟨rfl, rfl, rfl, rfl, rfl, rfl, id⟩
  unfold FlowGraph.function
  dsimp only
  split
  · exact hclear
  · refine hR.trans (hR.trans hclear (hR.chain _ _ _)) (hR.foldl fun q b _ => ?_)
    split
    · exact hR.refl q
    · exact hR.kill q b

theorem run (hR : Links R) (p : Program) : R p (run p) := hR.foldl fun q f _ => hR.function q f

end Links

theorem reshapes_run (p : Program) : p.Reshapes (run p) :=
  Links.run ⟨⟨.refl, .trans⟩, .modifyBlock, fun q b => (Marks.kill q b).reshapes⟩ p

end FlowGraph

/-! ## Common values -/

namespace CommonValues

private theorem reshapes_compute (s : StmtId) (st : State) : st.program.Reshapes (compute s st).program := by
  unfold compute
  dsimp only
  split
  · next t v m hs =>
    split
    · exact .refl _
    · split
      · exact .refl _
      · split
        · exact .modifyStmt_of_imp (.define hs rfl (List.nil_subset _) rfl rfl) id fun _ => rfl
        · split
          · exact .refl _
          · exact .refl _
  · exact .refl _

variable {walk : Walk}

private theorem reshapes_nested (hw : ∀ b (q : Program) a, q.Reshapes (walk b (q, a)).1) (a : Action) (st : State) :
    st.program.Reshapes (nested walk a st).program := by
  unfold nested
  dsimp only
  split
  · exact (hw _ _ _).trans (hw _ _ _)
  · exact List.foldlRecOn _ _ (.refl _) fun q hq b _ => hq.trans (hw _ _ _)

private theorem reshapes_stmt (hw : ∀ b (q : Program) a, q.Reshapes (walk b (q, a)).1) (st : State) (s : StmtId) :
    st.program.Reshapes (stmt walk st s).program := by
  unfold stmt
  dsimp only
  split
  · refine (reshapes_compute s st).trans ?_
    split
    · exact reshapes_nested hw _ { compute s st with passing := {} }
    · exact reshapes_nested hw _ (compute s st)
  · exact .refl _

private theorem reshapes_chain (fuel : Nat) (b : Option BlockId) (p : Program) (a : Available) :
    p.Reshapes (chain fuel b (p, a)).1 := by
  induction fuel generalizing b p a with
  | zero => exact .refl p
  | succ fuel ih =>
    cases b with
    | none => exact .refl p
    | some b =>
      unfold chain
      split
      · exact .refl p
      · refine Reshapes.trans ?_ (ih _ _ _)
        exact List.foldlRecOn (motive := fun st : State => p.Reshapes st.program) _ _ (.refl p)
          fun st hst s _ => hst.trans (reshapes_stmt (fun b => ih (some b)) st s)

theorem reshapes_run (p : Program) : p.Reshapes (run p) :=
  List.foldlRecOn _ _ (.refl p) fun q hq _ _ => hq.trans (reshapes_chain _ _ q _)

end CommonValues

/-! ## Culling -/

namespace Culling

private theorem reshapes_dropCopies (p : Program) (s : StmtId) : p.Reshapes (dropCopies p s) := by
  unfold dropCopies
  split
  · next hs =>
    refine .modifyStmt_of_imp (.define hs rfl ?_ rfl rfl) id id
    rw [hs]
    exact List.filter_sublist.subset
  · exact .refl p

/-- What removing statements changes for those that stay. -/
private structure Removes (gone : List StmtId) (p q : Program) : Prop where
  alters : p.Alters q
  stmts : ∀ b, (q.block b).stmts = (p.block b).stmts
  tied : ∀ s t, s ∉ gone → p.Tied s t → q.Tied s t

private theorem Removes.marks (h : Removes gone p q) (k : q.Marks r) : Removes gone p r:=
  ⟨h.alters.trans k.reshapes.toAlters, fun b => (k.stmts b).trans (h.stmts b),
    fun s t hs ht => k.tied s t (h.tied s t hs ht)⟩

private theorem Removes.dropDefinition (h : Removes gone p q)
    {s : StmtId} {t : TempId} (hs : s ∈ gone) (hd : q.definition? t = some s) :
    Removes gone p (q.dropDefinition t) := by
  refine ⟨h.alters.trans (.dropDefinition q t), fun b => ?_, fun x u hx hu => ?_⟩
  · exact (q.block_modifySlot_of_eq (·.stmts) t b _ fun _ _ => rfl).trans (h.stmts b)
  · refine (h.tied x u hx hu).dropDefinition fun hdx => ?_
    rw [hd] at hdx
    obtain rfl := Option.some.inj hdx
    exact (hx hs).elim

private theorem Removes.remove (h : Removes gone p q) {s : StmtId} (hs : s ∈ gone) : Removes gone p (remove s q):= by
  unfold Culling.remove
  dsimp only
  refine List.foldlRecOn _ _ ?_ fun r hr b _ => hr.marks (.kill r b)
  split
  · split
    · next hd => exact h.dropDefinition hs hd
    · exact h
  · exact h

private theorem getLast?_filter {α : Type} {f : α → Bool} {list : List α} {x : α}
    (hx : x ∈ list.filter f) (hl : list.getLast? = some x) : (list.filter f).getLast? = some x := by
  obtain ⟨first, rfl⟩ := List.getLast?_eq_some_iff.mp hl
  rw [List.filter_append, List.filter_cons_of_pos (List.mem_filter.mp hx).2, List.filter_nil]
  exact List.getLast?_concat

/-- Removing the statements of a block that are not live is a step. -/
theorem reshapes_block (b : BlockId) (hp : p.Coherent) : p.Reshapes (block b p) := by
  let gone := (p.block b).stmts.filter fun s => !(p.stmt s).live
  let kept := (p.block b).stmts.filter fun s => (p.stmt s).live
  have hfold : Removes gone p (gone.foldl (fun p s => remove s p) p) :=
    List.foldlRecOn (motive := Removes gone p) _ _ ⟨.refl p, fun _ => rfl, fun _ _ _ h => h⟩
      fun q hq s hs => hq.remove hs
  rw [show block b p = (gone.foldl (fun p s => remove s p) p).modifyBlock b fun x =>
    { x with stmts := kept } from rfl]
  generalize gone.foldl (fun p s => remove s p) p = q at hfold ⊢
  have hkept : q.Alters (q.modifyBlock b fun x => { x with stmts := kept }) := by
    refine .setStmts ?_ ?_ ?_ <;> rw [hfold.stmts]
    · exact List.filter_sublist.subset
    · exact List.Pairwise.filter _
    · exact fun s hs _ hl => getLast?_filter hs hl
  have hset := Reshapes.setStmts hkept
  refine ⟨hfold.alters.trans hkept, fun c s t hs ht htied => ?_⟩
  refine hset.tied c s t hs ht (hfold.tied s t (fun hgone => ?_) htied)
  -- A removed statement stands in no block any more.
  obtain ⟨hmem, hl⟩ := List.mem_filter.mp hgone
  have hc := (hp.home c s (hfold.stmts c ▸ hkept.stmts c hs)).2
  rw [(hp.home b s hmem).2] at hc
  subst hc
  rw [block_modifyBlock] at hs
  split at hs
  · rw [(List.mem_filter.mp hs).2] at hl
    cases hl
  · next hlt => exact hlt ⟨rfl, hfold.alters.blocks_size ▸ p.lt_of_mem_stmts hmem⟩

theorem reshapes_run (hp : p.Coherent) : p.Reshapes (run p) := by
  have hcopies : p.Reshapes (p.allStmts.foldl dropCopies p) :=
    List.foldlRecOn _ _ (.refl p) fun q hq s _ => hq.trans (reshapes_dropCopies q s)
  exact hcopies.trans (.visit (fun b _ hq => reshapes_block b hq) (fun _ q _ _ => .refl q)
    (hp.of_reshapes hcopies))

end Culling

/-! ## Placement -/

namespace Placing

private theorem reshapes_setPlacement (p : Program) (s : StmtId) (m : Placement) :
    p.Reshapes (setPlacement s m p) := by
  refine .modifyStmt ?_ fun t _ htied => htied.imp_right fun hd => ?_
  · split
    · next hs =>
      refine .define hs rfl ?_ rfl rfl
      rw [hs, Action.copies_define _ _ m]
      exact List.Subset.refl _
    · exact .of_action rfl rfl rfl
  · split
    · exact hd
    · exact hd

/-- A step that leaves every statement in its place. -/
private def Stays (p q : Program) : Prop :=
  p.Reshapes q ∧ ∀ b, (q.block b).stmts = (p.block b).stmts

private theorem Stays.trans (h : Stays p q) (k : Stays q r) : Stays p r :=
  ⟨h.1.trans k.1, fun b => (k.2 b).trans (h.2 b)⟩

private theorem stays_drop (p : Program) (s : StmtId) :
    Stays p (p.modifyStmt s fun x => { x with live := false }) :=
  ⟨.modifyStmt_of_imp (.of_action rfl rfl rfl) (fun _ => rfl) id, fun _ => rfl⟩

private theorem stays_coalesce (st : State) (s : StmtId) : Stays st.program (coalesce st s).program := by
  unfold coalesce
  split
  · next t u m hs =>
    split
    · exact ⟨.refl _, fun _ => rfl⟩
    · refine Stays.trans (q := (st.uses.of t).foldl (fun p use => p.modifyStmt use.stmt fun x =>
        { x with action := x.action.mapOperands (replace t u) }) st.program) ?_ (stays_drop _ s)
      refine List.foldlRecOn (motive := Stays st.program) _ _ ⟨.refl _, fun _ => rfl⟩ fun q hq use _ => ?_
      exact hq.trans ⟨.modifyStmt_of_imp (.mapOperands _ rfl rfl rfl) id id, fun _ => rfl⟩
  · exact ⟨.refl _, fun _ => rfl⟩

/-- Computing an unread value for its effects alone is a step. -/
private theorem reshapes_dropTemp {s : StmtId} {t : TempId} {m : Placement}
    (hp : p.Coherent) (hb : s ∈ (p.block b).stmts) (hl : (p.stmt s).live = true)
    (hs : (p.stmt s).action = .define t v m) : p.Reshapes (dropTemp s t v p) := by
  have ht : (p.stmt s).action.temp? = some t := by rw [hs]; rfl
  have hd : p.definition? t = some s := (hp.tied b s t hb ht).definition hl
  have hother : ∀ u, (p.dropDefinition t).definition? u ≠ some s := by
    intro u hu
    rw [definition?_dropDefinition] at hu
    split at hu
    · cases hu
    · next hne =>
      have hus := hp.definition u s hu
      rw [ht] at hus
      exact hne (Option.some.inj hus).symm
  have halters : (p.dropDefinition t).Alters
      ((p.dropDefinition t).modifyStmt s fun x => { x with action := .eval v }) := by
    refine .modifyStmt_of_similar ⟨rfl, rfl, ?_, ?_, ?_, ?_, List.nil_subset _⟩ nofun
      fun u hu => (hother u hu).elim
    · exact (congrArg Action.blocks hs).symm
    · exact (congrArg Action.endsBlock hs).symm
    · exact (congrArg Action.isLoop hs).symm
    · exact (congrArg Action.jump? hs).symm
  refine ⟨(Alters.dropDefinition p t).trans halters, fun c x u hx hu htied => ?_⟩
  have heq : dropTemp s t v p =
      (p.dropDefinition t).modifyStmt s fun x => { x with action := .eval v } := rfl
  have hxs : x ≠ s := by
    rintro rfl
    rw [heq, stmt_modifyStmt_self (p.dropDefinition t) _ _ (hp.home b x hb).1] at hu
    cases hu
  have hdrop : (p.dropDefinition t).Tied x u := htied.dropDefinition fun hdx => by
    rw [hd] at hdx
    exact (hxs (Option.some.inj hdx).symm).elim
  unfold Tied
  rw [heq, stmt_modifyStmt_of_ne _ _ _ _ hxs]
  exact hdrop

private theorem stays_decidePlacement {s : StmtId} (uses : Uses) (hp : p.Coherent)
    (hb : s ∈ (p.block b).stmts) : Stays p (decidePlacement uses p s) := by
  have hset : ∀ m, Stays p (setPlacement s m p) := fun m => ⟨reshapes_setPlacement p s m, fun _ => rfl⟩
  have hnone : Stays p p := ⟨.refl p, fun _ => rfl⟩
  unfold decidePlacement
  dsimp only
  split
  · next t v m hs =>
    split
    · exact hnone
    · next hl =>
      split
      · exact hset _
      · split
        · split
          · exact stays_drop p s
          · exact ⟨reshapes_dropTemp hp hb (by simpa using hl) hs,
              fun c => p.block_modifySlot_of_eq (·.stmts) t c _ fun _ _ => rfl⟩
        · split
          · exact hset _
          · split
            · exact hset _
            · exact hset _
        · split
          · exact hset _
          · exact hset _
  · exact hnone

theorem reshapes_run (hp : p.Coherent) : p.Reshapes (run p) := by
  let definitions := p.allStmts.filter fun s => isDefinition (p.stmt s)
  let q := definitions.foldl (fun p s => setPlacement s .undecided p) p
  have hq : Stays p q := List.foldlRecOn (motive := Stays p) _ _ ⟨.refl p, fun _ => rfl⟩ fun r hr s _ =>
    hr.trans ⟨reshapes_setPlacement r s _, fun _ => rfl⟩
  have hst : Stays p (definitions.foldl coalesce { program := q, uses := q.uses }).program :=
    List.foldlRecOn (motive := fun st : State => Stays p st.program) _ _ hq fun st h s _ =>
      h.trans (stays_coalesce st s)
  refine (List.foldlRecOn (motive := Stays p) definitions (decidePlacement _) hst fun r hr s hs => ?_).1
  obtain ⟨b, -, hb⟩ := active_of_mem_allStmts (List.mem_filter.mp hs).1
  rw [← hr.2 b] at hb
  exact hr.trans (stays_decidePlacement _ (hp.of_reshapes hr.1) hb)

end Placing

/-! ## Liveness -/

namespace Liveness

variable {s : StmtId} {work : List StmtId} {w : Writes}

/-- A statement that may become live: no definition that was dropped. -/
def Markable (p : Program) (s : StmtId) : Prop :=
  ∀ t, (p.stmt s).action.temp? = some t → p.definition? t = some s ∨ (p.stmt s).effects ≠ []

/-- What marking statements as live changes. -/
structure Enlivens (p q : Program) : Prop where
  reshapes : p.Reshapes q
  blocks : q.blocks = p.blocks
  action : ∀ s, (q.stmt s).action = (p.stmt s).action
  effects : ∀ s, (q.stmt s).effects = (p.stmt s).effects

theorem Enlivens.refl (p : Program) : Enlivens p p :=
  ⟨.refl p, rfl, fun _ => rfl, fun _ => rfl⟩

theorem Enlivens.trans (h : Enlivens p q) (k : Enlivens q r) : Enlivens p r :=
  ⟨h.reshapes.trans k.reshapes, k.blocks.trans h.blocks,
    fun s => (k.action s).trans (h.action s), fun s => (k.effects s).trans (h.effects s)⟩

theorem Enlivens.slot? (h : Enlivens p q) : q.slot? = p.slot? := by
  funext t
  simp only [Program.slot?, block, h.blocks]

theorem Enlivens.definition? (h : Enlivens p q) : q.definition? = p.definition? := by
  funext t
  simp only [Program.definition?, h.slot?]

theorem Enlivens.markable (h : Enlivens p q) (hs : Markable p s) : Markable q s := by
  intro t ht
  rw [h.action] at ht
  rw [h.definition?, h.effects]
  exact hs t ht

private theorem enlivens_modifyStmt {f : Stmt → Stmt}
    (hf : ∀ x, f x = { x with live := (f x).live, escapes := (f x).escapes })
    (hr : p.Reshapes (p.modifyStmt s f)) : Enlivens p (p.modifyStmt s f) := by
  refine ⟨hr, rfl, fun x => ?_, fun x => ?_⟩
  · exact p.stmt_modifyStmt_of_eq (·.action) s x f fun y => by rw [hf]
  · exact p.stmt_modifyStmt_of_eq (·.effects) s x f fun y => by rw [hf]

private theorem enlivens_mark (hs : Markable p s) : Enlivens p (mark (p, work) s).1 := by
  unfold mark
  dsimp only
  split
  · exact .refl p
  · refine enlivens_modifyStmt (fun _ => rfl) (.modifyStmt (.of_action rfl rfl rfl) ?_)
    intro t ht htied
    rcases hs t ht with hd | he
    · exact .inl hd
    · exact htied.imp_right fun hdead => (he hdead.2).elim

theorem enlivens_marks (hlist : ∀ s, s ∈ list → Markable p s)
    (work : List StmtId) : Enlivens p (list.foldl mark (p, work)).1 :=
  List.foldlRecOn (motive := fun st : Program × List StmtId => Enlivens p st.1) _ _ (.refl p)
    fun _ hst s hs => hst.trans (enlivens_mark (hst.markable (hlist s hs)))

private theorem markable_of_definition {t : TempId} (hp : p.Coherent) (h : p.definition? t = some s) :
    Markable p s := by
  intro u hu
  rw [hp.definition t s h] at hu
  obtain rfl := Option.some.inj hu
  exact .inl h

private theorem markable_of_temp (h : (p.stmt s).action.temp? = none) : Markable p s := by
  intro t ht
  rw [h] at ht
  cases ht

theorem mem_written {es : List Effect} {t : TempId} : t ∈ es.filterMap (written? p) ↔
    .mutation (.temp t) ∈ es ∧ p.isConstruction t = true := by
  rw [List.mem_filterMap]
  constructor
  · rintro ⟨e, he, ht⟩
    unfold written? at ht
    split at ht
    · simp only [Option.ite_none_right_eq_some, Option.some.injEq] at ht
      obtain ⟨hc, rfl⟩ := ht
      exact ⟨he, hc⟩
    · cases ht
  · rintro ⟨he, hc⟩
    exact ⟨_, he, if_pos hc⟩

theorem mem_getD_foldl_insert {ts : List TempId} {x : StmtId} {t : TempId} :
    s ∈ (ts.foldl (fun w t => w.insert t (w.getD t [] ++ [x])) w).getD t [] ↔
      s ∈ w.getD t [] ∨ s = x ∧ t ∈ ts := by
  induction ts generalizing w with
  | nil => simp
  | cons u ts ih =>
    rw [List.foldl_cons, ih, Std.TreeMap.getD_insert, List.mem_cons]
    by_cases hu : u = t
    · subst hu
      simp [or_assoc]
      grind
    · rw [if_neg (by simpa using hu), or_iff_right (Ne.symm hu)]

/-- The writes to a fresh object are the statements that mutate it. -/
theorem mem_writes_iff {stmts : List StmtId} {t : TempId} : s ∈ (writes p stmts).getD t [] ↔
      s ∈ stmts ∧ .mutation (.temp t) ∈ (p.stmt s).effects ∧ p.isConstruction t = true := by
  have hfold (w : Writes) : s ∈ (stmts.foldl (fun w s =>
      ((p.stmt s).effects.filterMap (written? p)).foldl (fun w t => w.insert t (w.getD t [] ++ [s])) w) w).getD t [] ↔
        s ∈ w.getD t [] ∨ s ∈ stmts ∧ t ∈ (p.stmt s).effects.filterMap (written? p) := by
    induction stmts generalizing w with
    | nil => simp
    | cons x stmts ih =>
      rw [List.foldl_cons, ih, mem_getD_foldl_insert, List.mem_cons]
      grind
  rw [writes, hfold, mem_written]
  simp

theorem mem_definitions_iff {xs : List Operand} {d : StmtId} :
    d ∈ definitions p xs ↔ ∃ t, p.definition? t = some d ∧ .temp t ∈ xs := by
  simp only [definitions, List.mem_filterMap]
  constructor
  · rintro ⟨t, ⟨x, hx, ht⟩, hd⟩
    cases x with
    | temp u =>
      cases ht
      exact ⟨_, hd, hx⟩
    | _ => cases ht
  · rintro ⟨t, hd, ht⟩
    exact ⟨t, ⟨_, ht, rfl⟩, hd⟩

/-- The operands that an action reads. The condition of a loop counts only while its test can run. -/
def reads (p : Program) : Action → List Operand
  | .loop l => if l.test?.any fun b => (p.block b).dead then [] else l.head.operands
  | a => a.operands

/-- What a statement depends on: the branch or loop around it, the definitions of the temps that it reads or
stores values in, the copies that it merges, and the writes to its object. -/
theorem mem_dependencies_iff {x : IR.Stmt} {d : StmtId} : d ∈ dependencies p w x ↔ x.parent = some d ∨
      (∃ t, p.definition? t = some d ∧
        (.temp t ∈ reads p x.action ∨ x.action.each? = some t ∨ ∃ v, x.action = .copy t v)) ∨
      (d ∈ x.action.copies ∧ (p.block (p.stmt d).block).dead = false) ∨
      ∃ t, x.action.temp? = some t ∧ d ∈ w.getD t [] := by
  rw [dependencies, List.mem_append, Option.mem_toList]
  refine or_congr_right ?_
  cases x.action with
  | loop l =>
    obtain ⟨head, body, rounds⟩ := l
    cases head with
    | tested behind test cond =>
      cases hdead : (p.block test).dead <;>
        simp [loopDependencies, reads, Loop.test?, hdead, mem_definitions_iff, LoopHead.operands,
          Action.each?, Action.copies, Action.temp?]
    | iterated of each object =>
      cases each <;>
        simp [loopDependencies, reads, Loop.test?, mem_definitions_iff, LoopHead.operands,
          Action.each?, Action.copies, Action.temp?, and_or_left, exists_or]
  | copy t v =>
    simp [mem_definitions_iff, reads, Action.each?, Action.copies, Action.temp?, and_or_left, exists_or,
      Action.operands, or_comm]
  | define t v m =>
    cases v <;>
    simp [mem_definitions_iff, reads, Action.each?, Action.copies, Action.temp?, and_or_left, exists_or,
      Action.operands, copyDependencies, Value.operands, or_comm]
  | declare place f name =>
    cases place <;>
    simp [reads, Action.each?, Action.copies, Action.temp?, Place.temp?, Action.operands, definitions]
  | _ => simp [mem_definitions_iff, reads, Action.each?, Action.copies, Action.temp?]

theorem markable_of_mem_dependencies {d : StmtId} (hp : p.Coherent)
    (hw : ∀ t x, x ∈ w.getD t [] → (p.stmt x).effects ≠ []) (h : d ∈ dependencies p w (p.stmt s)) :
    Markable p d := by
  rcases mem_dependencies_iff.mp h with h | ⟨t, h, -⟩ | ⟨h, -⟩ | ⟨t, -, h⟩
  · exact markable_of_temp (hp.owner s d h)
  · exact markable_of_definition hp h
  · exact markable_of_temp (hp.copies s d h)
  · exact fun _ _ => .inr (hw t d h)

/-- What statements depend on stays the same when others become live. -/
private theorem Enlivens.dependencies (h : Enlivens p q) (w : Writes) (x : IR.Stmt) :
    dependencies q w x = dependencies p w x := by
  have hdead : ∀ b, (q.block b).dead = (p.block b).dead := fun b => by simp only [block, h.blocks]
  unfold Liveness.dependencies loopDependencies copyDependencies definitions
  simp only [h.definition?, hdead, h.reshapes.home]

private theorem live_of_marks (h : ((list.foldl mark (p, work)).1.stmt s).live = true) :
    (p.stmt s).live = true ∨ s ∈ list := by
  induction list generalizing p work with
  | nil => exact .inl h
  | cons x list ih =>
    rw [List.foldl_cons] at h
    unfold mark at h
    dsimp only at h
    split at h
    · exact (ih h).imp_right (List.mem_cons_of_mem _)
    · rcases ih h with h | h
      · rw [stmt_modifyStmt] at h
        split at h
        · next hs => exact .inr (hs.1 ▸ List.mem_cons_self)
        · exact .inl h
      · exact .inr (List.mem_cons_of_mem _ h)

private theorem mem_of_mem_marks (h : s ∈ (list.foldl mark (p, work)).2) : s ∈ list ∨ s ∈ work:= by
  induction list generalizing p work with
  | nil => exact .inr h
  | cons x list ih =>
    rw [List.foldl_cons] at h
    unfold mark at h
    dsimp only at h
    split at h
    · exact (ih h).imp_left (List.mem_cons_of_mem _)
    · rcases ih h with h | h
      · exact .inl (List.mem_cons_of_mem _ h)
      · rcases List.mem_cons.mp h with rfl | h
        · exact .inl List.mem_cons_self
        · exact .inr h

/-- A round marks what one statement depended on at the start. -/
theorem exists_propagate_cons (hq : Enlivens p q) (fuel : Nat) (s : StmtId) (work : List StmtId) :
    ∃ r, Enlivens q r ∧ (∀ x, (r.stmt x).live = (q.stmt x).live) ∧ propagate w (fuel + 1) (q, s :: work) =
        propagate w fuel ((dependencies p w (p.stmt s)).foldl mark (r, work)) := by
  have hescape : Enlivens q ((definitions q (callArgs (q.stmt s).action)).foldl (fun p d =>
      p.modifyStmt d fun y => { y with escapes := true }) q) ∧
      ∀ x, (((definitions q (callArgs (q.stmt s).action)).foldl (fun p d =>
        p.modifyStmt d fun y => { y with escapes := true }) q).stmt x).live = (q.stmt x).live :=
    List.foldlRecOn (motive := fun r => Enlivens q r ∧ ∀ x, (r.stmt x).live = (q.stmt x).live) _ _
      ⟨.refl q, fun _ => rfl⟩ fun r hr d _ => ⟨hr.1.trans (enlivens_modifyStmt (fun _ => rfl)
        (.modifyStmt_of_imp (.of_action rfl rfl rfl) id id)),
        fun x => (r.stmt_modifyStmt_of_eq (·.live) d x (fun y => { y with escapes := true }) fun _ => rfl).trans
          (hr.2 x)⟩
  refine ⟨_, hescape.1, hescape.2, ?_⟩
  rw [propagate, (hq.trans hescape.1).dependencies]
  unfold Liveness.dependencies
  rw [hq.action, hq.reshapes.parent]

/-- What becomes live is in every set of statements that holds what its members depend on. -/
private theorem enlivens_propagate {K : StmtId → Prop} (hp : p.Coherent)
    (hw : ∀ t x, x ∈ w.getD t [] → (p.stmt x).effects ≠ [])
    (hK : ∀ s d, K s → d ∈ dependencies p w (p.stmt s) → K d) (fuel : Nat) (hq : Enlivens p q)
    (hwork : ∀ s, s ∈ work → K s) : Enlivens p (propagate w fuel (q, work)) ∧
      ∀ s, ((propagate w fuel (q, work)).stmt s).live = true → (q.stmt s).live = true ∨ K s := by
  induction fuel generalizing q work with
  | zero => exact ⟨hq, fun _ h => .inl h⟩
  | succ fuel ih =>
    cases work with
    | nil => exact ⟨hq, fun _ h => .inl h⟩
    | cons s work =>
      obtain ⟨r, hescape, hlive, hstep⟩ := exists_propagate_cons hq fuel s work
      have hr := hq.trans hescape
      have hmarks : Enlivens r ((dependencies p w (p.stmt s)).foldl mark (r, work)).1 :=
        enlivens_marks (fun d hd => hr.markable (markable_of_mem_dependencies hp hw hd)) work
      have hmem : ∀ d, d ∈ dependencies p w (p.stmt s) → K d := fun d => hK s d (hwork s List.mem_cons_self)
      obtain ⟨hall, hrest⟩ := ih (hr.trans hmarks) fun d hd => (mem_of_mem_marks hd).elim (hmem d)
        fun hd => hwork d (List.mem_cons_of_mem _ hd)
      rw [hstep]
      refine ⟨hall, fun x hx => ?_⟩
      rcases hrest x hx with hx | hx
      · rw [← hlive]
        exact (live_of_marks hx).imp_right (hmem x)
      · exact .inr hx

theorem markable_of_isRoot (h : isRoot p (p.stmt s) = true) : Markable p s := by
  intro t ht
  unfold isRoot at h
  cases ha : (p.stmt s).action with
  | returnValue | throwValue | breakLoop | continueLoop | loop =>
    rw [ha] at ht
    cases ht
  | _ =>
    right
    intro hnone
    rw [ha, hnone] at h
    cases h

/-- A statement that is not marked yet. -/
private def clear (p : Program) (s : StmtId) : Program :=
  p.modifyStmt s fun x => { x with live := false, escapes := false }

private theorem enlivens_clear (list : List StmtId) (p : Program) : Enlivens p (list.foldl clear p) ∧
    ∀ s, ((list.foldl clear p).stmt s).live = true ↔ (p.stmt s).live = true ∧ s ∉ list := by
  induction list generalizing p with
  | nil => exact ⟨.refl p, by simp⟩
  | cons x list ih =>
    obtain ⟨hrest, hlive⟩ := ih (clear p x)
    have hfirst : Enlivens p (clear p x) := enlivens_modifyStmt (fun _ => rfl)
      (.modifyStmt_of_imp (.of_action rfl rfl rfl) (fun _ => rfl) id)
    refine ⟨hfirst.trans hrest, fun s => ?_⟩
    rw [List.foldl_cons, hlive, clear, stmt_modifyStmt, List.mem_cons, not_or, ← and_assoc]
    refine and_congr_left' ?_
    split
    · next h => simp [h.1]
    · next h =>
      refine (and_iff_left_of_imp fun hl hx => h ⟨hx, Nat.lt_of_not_le fun hge => ?_⟩).symm
      rw [p.stmt_of_ge s (hx ▸ hge)] at hl
      cases hl

/-- The pass starts from the roots among the statements that it visits, which it has all marked as dead. -/
theorem exists_run_eq (p : Program) : ∃ q, Enlivens p q ∧
    (∀ s, (q.stmt s).live = true ↔ (p.stmt s).live = true ∧ s ∉ p.allStmts) ∧
    run p = propagate (writes p p.allStmts) (p.stmts.size + 1)
      ((p.allStmts.filter fun s => isRoot p (p.stmt s)).foldl mark (q, [])) := by
  obtain ⟨hclear, hlive⟩ := enlivens_clear p.allStmts p
  refine ⟨_, hclear, hlive, ?_⟩
  rw [show run p = propagate (writes (p.allStmts.foldl clear p) p.allStmts)
    ((p.allStmts.foldl clear p).stmts.size + 1) ((p.allStmts.filter fun s =>
      isRoot (p.allStmts.foldl clear p) ((p.allStmts.foldl clear p).stmt s)).foldl mark
        (p.allStmts.foldl clear p, [])) from rfl]
  have hwritten : written? (p.allStmts.foldl clear p) = written? p := by
    funext e
    simp only [written?, Program.isConstruction, value?, definer?, hclear.definition?, hclear.action]
    rfl
  simp only [writes, isRoot, hwritten, hclear.effects, hclear.action, hclear.reshapes.stmts_size]

/-- A run of the pass marks statements only, and what is live behind it is in every set of statements that
holds the roots and what its members depend on, unless it was live and is not visited. -/
theorem enlivens_run {K : StmtId → Prop} (hp : p.Coherent)
    (hroot : ∀ s, s ∈ p.allStmts → isRoot p (p.stmt s) = true → K s)
    (hK : ∀ s d, K s → d ∈ dependencies p (writes p p.allStmts) (p.stmt s) → K d) :
    Enlivens p (run p) ∧
      ∀ s, ((run p).stmt s).live = true → K s ∨ (p.stmt s).live = true ∧ s ∉ p.allStmts := by
  obtain ⟨q, hq, hstart, hrun⟩ := exists_run_eq p
  have hroots : ∀ s, s ∈ p.allStmts.filter (fun s => isRoot p (p.stmt s)) → K s ∧ Markable q s := fun s hs => by
    obtain ⟨hs, hr⟩ := List.mem_filter.mp hs
    exact ⟨hroot s hs hr, hq.markable (markable_of_isRoot hr)⟩
  have hw : ∀ t x, x ∈ (writes p p.allStmts).getD t [] → (p.stmt x).effects ≠ [] := fun t x hx =>
    List.ne_nil_of_mem (mem_writes_iff.mp hx).2.1
  have hwork : ∀ s, s ∈ ((p.allStmts.filter fun s => isRoot p (p.stmt s)).foldl mark (q, [])).2 → K s :=
    fun s hs => (mem_of_mem_marks hs).elim (fun hs => (hroots s hs).1) nofun
  obtain ⟨hall, hlive⟩ := enlivens_propagate hp hw hK (p.stmts.size + 1)
    (hq.trans (enlivens_marks (fun s hs => (hroots s hs).2) [])) hwork
  rw [hrun]
  refine ⟨hall, fun s hl => ?_⟩
  rcases hlive s hl with h | h
  · exact (live_of_marks h).symm.imp (fun h => (hroots s h).1) (hstart s).mp
  · exact .inl h

theorem reshapes_run (hp : p.Coherent) : p.Reshapes (run p) :=
  (enlivens_run (K := fun _ => True) hp (fun _ _ _ => trivial) fun _ _ _ _ => trivial).1.reshapes

end Liveness

/-! ## Writes to literals -/

namespace LiteralWrites

variable {t : TempId} {d : StmtId}

private theorem isConstruction_of_set? {literal : Value} {key value : Operand}
    (h : set? literal key value = some v) : v.isConstruction = true := by
  obtain ⟨k, -, h⟩ := Option.bind_eq_some_iff.mp h
  split at h
  · cases h
  · cases literal with
    | object ms =>
      dsimp only at h
      split at h
      · obtain rfl := Option.some.inj h
        rfl
      · cases h
    | array es =>
      obtain ⟨i, -, h⟩ := Option.bind_eq_some_iff.mp h
      split at h
      · obtain rfl := Option.some.inj h
        rfl
      · split at h
        · obtain rfl := Option.some.inj h
          rfl
        · cases h
    | _ => cases h

private theorem isConstruction_of_push? {literal : Value} {key : Operand} {args : List Operand}
    (h : push? literal key args = some v) : v.isConstruction = true := by
  cases literal with
  | array es =>
    dsimp only [push?] at h
    split at h
    · obtain rfl := Option.some.inj h
      rfl
    · cases h
  | _ => cases h

private theorem mem_of_lookup {isOpen : Open} (h : isOpen.lookup t = some d) : (t, d) ∈ isOpen := by
  obtain ⟨front, rest, rfl, -⟩ := List.lookup_eq_some_iff.mp h
  exact List.mem_append_cons_self

/-- A statement that is folded writes to an open literal and gives a literal. -/
theorem folded?_eq_some {uses : Uses} {isOpen : Open} {a : Action} (h : folded? p uses isOpen a = some (d, t, v)) :
    (t, d) ∈ isOpen ∧ v.isConstruction = true ∧ a.endsBlock = false := by
  unfold folded? at h
  split at h
  · obtain ⟨e, he, h⟩ := Option.bind_eq_some_iff.mp h
    split at h
    · cases h
    · obtain ⟨w, -, h⟩ := Option.bind_eq_some_iff.mp h
      obtain ⟨x, hx, h⟩ := Option.bind_eq_some_iff.mp h
      cases h
      exact ⟨mem_of_lookup he, isConstruction_of_set? hx, rfl⟩
  · split at h
    · cases h
    · obtain ⟨e, he, h⟩ := Option.bind_eq_some_iff.mp h
      split at h
      · cases h
      · obtain ⟨w, -, h⟩ := Option.bind_eq_some_iff.mp h
        obtain ⟨x, hx, h⟩ := Option.bind_eq_some_iff.mp h
        cases h
        exact ⟨mem_of_lookup he, isConstruction_of_push? hx, rfl⟩
  · cases h

/-- The temp of a literal that takes up a write stays the same. -/
private theorem temp?_redefine (hd : (p.stmt d).action.temp? = some t) (x : StmtId) :
    ((redefine d t v p).stmt x).action.temp? = (p.stmt x).action.temp? := by
  unfold redefine
  rw [stmt_modifyStmt]
  split
  · next hx =>
    obtain ⟨rfl, -⟩ := hx
    split
    · exact hd.symm
    · rfl
  · rfl

private theorem reshapes_redefine (hd : (p.stmt d).action.temp? = some t)
    (hv : v.isConstruction = true) : p.Reshapes (redefine d t v p) := by
  refine .modifyStmt ?_ fun _ _ htied => htied.imp_right fun hdead => ?_
  · split
    · next u w m ha =>
      rw [ha] at hd
      obtain rfl := Option.some.inj hd
      refine .define ha rfl ?_ rfl rfl
      cases v with
      | object | array => exact List.nil_subset _
      | _ => cases hv
    · exact .of_action rfl rfl rfl
  · split
    · exact hdead
    · exact hdead

/-- Dropping a live statement is a step. -/
private theorem reshapes_drop {s : StmtId} (hp : p.Coherent)
    (hb : s ∈ (p.block b).stmts) (hl : (p.stmt s).live = true) : p.Reshapes (drop s p) := by
  let q := p.modifyStmt s fun x => { x with live := false, effects := [] }
  have hq : p.Reshapes q := .modifyStmt_of_imp (.of_action rfl rfl rfl) (fun _ => rfl) fun _ => rfl
  unfold drop
  split
  · next t v m hs =>
    refine hq.trans (.dropDefinition fun x hx => ?_)
    have ht : (p.stmt s).action.temp? = some t := by rw [hs]; rfl
    have hd := (hp.tied b s t hb ht).definition hl
    obtain rfl : s = x := Option.some.inj (hd.symm.trans hx)
    rw [stmt_modifyStmt_self p _ _ (hp.home b s hb).1]
    exact ⟨rfl, rfl⟩
  · exact hq

private theorem action_drop (s x : StmtId) : ((drop s p).stmt x).action = (p.stmt x).action := by
  unfold drop
  split
  · exact (p.dropDefinition _).stmt_modifyStmt_of_eq (·.action) s x _ fun _ => rfl
  · exact p.stmt_modifyStmt_of_eq (·.action) s x _ fun _ => rfl

private theorem stmts_drop (s : StmtId) (c : BlockId) :
    ((drop s p).block c).stmts = (p.block c).stmts := by
  unfold drop
  split
  · exact p.block_modifySlot_of_eq (·.stmts) _ c _ fun _ _ => rfl
  · rfl

/-- What holds when some statements of a block are worked through. -/
private structure Folded (p : Program) (done : List StmtId) (st : State) : Prop where
  reshapes : p.Reshapes st.program
  stmts : ∀ c, (st.program.block c).stmts = (p.block c).stmts
  passed : st.passed ⊆ done
  nodup : st.passed.Nodup
  isOpen : ∀ t d, (t, d) ∈ st.isOpen → d ∈ st.passed ∧ (st.program.stmt d).action.temp? = some t
  last : ∀ s, done.getLast? = some s → (p.stmt s).action.endsBlock = true → st.passed.head? = some s

/-- A literal that is open behind a statement was open before it or is defined there. -/
theorem mem_isOpen_pass {s : StmtId} (h : (t, d) ∈ (pass st s).isOpen) : (t, d) ∈ st.isOpen ∨
      d = s ∧ ∃ v m, (st.program.stmt s).action = .define t v m ∧ v.isConstruction = true := by
  have hmem : ∀ {list : List (TempId × StmtId)} {f : TempId × StmtId → Bool},
      (t, d) ∈ list.filter f → (t, d) ∈ list := fun hx => (List.mem_filter.mp hx).1
  unfold pass at h
  dsimp only at h
  cases ha : (st.program.stmt s).action with
  | define u v m =>
    rw [ha] at h
    have hrest : ∀ {list : List (TempId × StmtId)}, (t, d) ∈ (if (st.program.stmt s).clobbers then
        list.filter fun x => !readsVolatile st.program x.1 else list) → (t, d) ∈ list := by
      intro list hx
      split at hx
      · exact hmem hx
      · exact hx
    have h := hrest h
    dsimp only at h
    split at h
    · next hnew =>
      rcases List.mem_cons.mp h with h | h
      · obtain ⟨rfl, rfl⟩ := Prod.mk.inj h
        exact .inr ⟨rfl, v, m, rfl, (Bool.and_eq_true_iff.mp hnew).2⟩
      · exact .inl (hmem (hmem h))
    · exact .inl (hmem h)
  | _ =>
    rw [ha] at h
    dsimp only at h
    split at h
    · exact .inl (hmem (hmem h))
    · exact .inl (hmem h)

private theorem Folded.step (uses : Uses) {done : List StmtId}
    {s : StmtId} (h : Folded p done st) (hp : p.Coherent) (hs : s ∈ (p.block b).stmts) (hnew : s ∉ done) :
    Folded p (done ++ [s]) (step uses st s) := by
  have hpassed : s ∉ st.passed := fun hmem => hnew (h.passed hmem)
  have hlast : ∀ x, (done ++ [s]).getLast? = some x → x = s := by
    intro x hx
    rw [List.getLast?_concat] at hx
    exact (Option.some.inj hx).symm
  have hsub : s :: st.passed ⊆ done ++ [s] := by
    intro x hx
    rcases List.mem_cons.mp hx with rfl | hx
    · exact List.mem_append_cons_self
    · exact List.mem_append_left _ (h.passed hx)
  unfold LiteralWrites.step
  dsimp only
  split
  · refine ⟨h.reshapes, h.stmts, hsub, List.nodup_cons.mpr ⟨hpassed, h.nodup⟩, fun t d hd => ?_,
      fun x hx _ => ?_⟩
    · exact ⟨List.mem_cons_of_mem _ (h.isOpen t d hd).1, (h.isOpen t d hd).2⟩
    · rw [hlast x hx]
      rfl
  · next hl =>
    have hl : (st.program.stmt s).live = true := by simpa using hl
    split
    · next d t v hfold =>
      obtain ⟨hopen, hv, hends⟩ := folded?_eq_some hfold
      obtain ⟨hd, htemp⟩ := h.isOpen t d hopen
      have hne : s ≠ d := fun heq => hpassed (heq ▸ hd)
      have hr1 := reshapes_redefine htemp hv
      have hst := hp.of_reshapes h.reshapes
      have hlive : ((redefine d t v st.program).stmt s).live = true := by
        unfold redefine
        rw [stmt_modifyStmt_of_ne _ _ _ _ hne]
        exact hl
      have hr2 := reshapes_drop (b := b) (hst.of_reshapes hr1) (by
        rw [show ((redefine d t v st.program).block b).stmts = (st.program.block b).stmts from rfl,
          h.stmts]
        exact hs) hlive
      have htemps : ∀ x, ((drop s (redefine d t v st.program)).stmt x).action.temp? =
          (st.program.stmt x).action.temp? := fun x => by
        rw [action_drop, temp?_redefine htemp]
      have hkept : ∀ {x}, x ∈ st.passed → x ∈ d :: s :: st.passed.filter (· ≠ d) := by
        intro x hx
        by_cases hxd : x = d
        · exact hxd ▸ List.mem_cons_self
        · exact List.mem_cons_of_mem _ (List.mem_cons_of_mem _
            (List.mem_filter.mpr ⟨hx, decide_eq_true hxd⟩))
      refine ⟨(h.reshapes.trans hr1).trans hr2, fun c => ?_, ?_, ?_, fun u x hx => ?_, fun x hx he => ?_⟩
      · exact (stmts_drop s c).trans (h.stmts c)
      · intro x hx
        rcases List.mem_cons.mp hx with rfl | hx
        · exact hsub (List.mem_cons_of_mem _ hd)
        · rcases List.mem_cons.mp hx with rfl | hx
          · exact hsub List.mem_cons_self
          · exact hsub (List.mem_cons_of_mem _ (List.mem_filter.mp hx).1)
      · refine List.nodup_cons.mpr ⟨fun hx => ?_, List.nodup_cons.mpr ⟨fun hx => ?_, ?_⟩⟩
        · rcases List.mem_cons.mp hx with heq | hx
          · exact hne heq.symm
          · exact of_decide_eq_true (List.mem_filter.mp hx).2 rfl
        · exact hpassed (List.mem_filter.mp hx).1
        · exact List.Pairwise.filter _ h.nodup
      · show x ∈ d :: s :: st.passed.filter (· ≠ d) ∧
          ((drop s (redefine d t v st.program)).stmt x).action.temp? = some u
        rw [htemps]
        rcases mem_isOpen_pass hx with hx | ⟨rfl, w, m, hx, -⟩
        · exact ⟨hkept (h.isOpen u x hx).1, (h.isOpen u x hx).2⟩
        · exact ⟨List.mem_cons_self, (htemps x).symm.trans (congrArg Action.temp? hx)⟩
      · rw [hlast x hx, ← h.reshapes.endsBlock, hends] at he
        cases he
    · refine ⟨h.reshapes, h.stmts, hsub, List.nodup_cons.mpr ⟨hpassed, h.nodup⟩, fun t d hd => ?_,
        fun x hx _ => ?_⟩
      · rcases mem_isOpen_pass hd with hd | ⟨rfl, w, m, ht, -⟩
        · exact ⟨List.mem_cons_of_mem _ (h.isOpen t d hd).1, (h.isOpen t d hd).2⟩
        · exact ⟨List.mem_cons_self, congrArg Action.temp? ht⟩
      · rw [hlast x hx]
        rfl

private theorem Folded.foldl {uses : Uses} {done rest : List StmtId}
    (hp : p.Coherent) (h : Folded p done st) (hlist : done ++ rest = (p.block b).stmts) :
    Folded p (done ++ rest) (rest.foldl (LiteralWrites.step uses) st) := by
  induction rest generalizing done st with
  | nil => rw [List.append_nil]; exact h
  | cons s rest ih =>
    have hnodup := hp.nodup b
    rw [← hlist] at hnodup
    have hnew : s ∉ done := fun hs =>
      (List.nodup_append.mp hnodup).2.2 s hs s List.mem_cons_self rfl
    have hmem : s ∈ (p.block b).stmts := by
      rw [← hlist]
      exact List.mem_append_cons_self
    have hnext := ih (h.step uses hp hmem hnew) (by simpa using hlist)
    simpa using hnext

/-- Folding the writes of a block is a step. -/
theorem reshapes_block (uses : Uses) (b : BlockId) (hp : p.Coherent) : p.Reshapes (block uses b p) := by
  have h : Folded p ([] ++ (p.block b).stmts) ((p.block b).stmts.foldl (step uses) { program := p }) :=
    Folded.foldl hp ⟨.refl p, fun _ => rfl, List.Subset.refl _, List.nodup_nil,
      nofun, nofun⟩ rfl
  unfold block
  dsimp only
  generalize (p.block b).stmts.foldl (step uses) { program := p } = st at h ⊢
  refine h.reshapes.trans (.setStmts (.setStmts ?_ ?_ ?_)) <;> rw [h.stmts]
  · exact fun x hx => h.passed (List.mem_reverse.mp hx)
  · exact fun _ => List.pairwise_reverse.mpr (h.nodup.imp Ne.symm)
  · intro s _ he hl
    rw [List.getLast?_reverse]
    rw [h.reshapes.endsBlock] at he
    exact h.last s hl he

theorem reshapes_run (hp : p.Coherent) : p.Reshapes (run p) :=
  .visit (fun b _ hq => reshapes_block _ b hq) (fun _ q _ _ => .refl q) hp

end LiteralWrites

/-! ## All passes -/

/-- Every pass keeps the structure of a program. -/
theorem Pass.reshapes_apply (forSize : Bool) (pass : Pass) (hp : p.Coherent) :
    p.Reshapes (pass.apply forSize p) := by
  cases pass with
  | liveness => exact Liveness.reshapes_run hp
  | simplify => exact Simplify.reshapes_run forSize hp
  | branchElimination => exact Branches.reshapes_run hp
  | controlFlowGraph => exact FlowGraph.reshapes_run p
  | commonSubexpressions => exact CommonValues.reshapes_run p
  | instanceInlining => exact LiteralWrites.reshapes_run hp
  | temporaryMaterialization => exact Placing.reshapes_run hp
  | deadStatementCulling => exact Culling.reshapes_run hp

end ScriptOptimizer
