import ScriptOptimizer.Proofs.LoweringCursor

/-!
# Lowering of branches

The lowering of a branch is taken apart into the runs of its arms and the merging of values behind them.
-/

namespace ScriptOptimizer.Lowering

open IR

variable {strict : Prop} {names : Names} {c : Site} {s s' t t' : State} {pos : Position}

/-! ## Values of bindings -/

variable {bs tracked extra : List BindingId} {cond : Operand} {thenArm : Site → Lower Unit}
  {elseArm : Option (Site → Lower Unit)}

/-- The bindings of the function of a site whose values are known. -/
def visibleBindings (names : Names) (c : Site) : List BindingId :=
  (((names.chain c.scope).takeWhile fun s => (names.scope s).owner == c.func).flatMap fun s =>
    (names.scope s).bindings).filter fun b =>
      (names.binding b).isTracked && (names.binding b).kind != .self

def State.valuesOf (s : State) (bs : List BindingId) : List (Option Operand) :=
  bs.map fun b => s.values.getD b none

/-- Values with those of some bindings set. -/
def restored (values : Array (Option Operand)) (entries : List (BindingId × Option Operand)) :
    Array (Option Operand) :=
  entries.foldl (fun values e => values.setIfInBounds e.1 e.2) values

theorem getD_setIfInBounds {α : Type} (values : Array (Option α)) (i j : Nat) (v : Option α) :
    (values.setIfInBounds i v).getD j none =
      if i = j ∧ i < values.size then v else values.getD j none := by
  simp only [Array.getD_eq_getD_getElem?, Array.getElem?_setIfInBounds]
  by_cases hij : i = j
  · subst hij
    by_cases hi : i < values.size
    · simp [hi]
    · simp [hi]
  · simp [hij]

@[simp] theorem size_restored (values : Array (Option Operand))
    (entries : List (BindingId × Option Operand)) : (restored values entries).size = values.size := by
  induction entries generalizing values with
  | nil => rfl
  | cons e rest ih =>
    rw [restored, List.foldl_cons]
    exact (ih _).trans Array.size_setIfInBounds

theorem visible_ok (h : visible c names s = .ok (bs, s')) : bs = visibleBindings names c ∧ s' = s := by
  cases h
  exact ⟨rfl, rfl⟩

theorem mapM_value?_ok {vs : List (Option Operand)} (h : bs.mapM value? names s = .ok (vs, s')) :
    vs = s.valuesOf bs ∧ s' = s := by
  refine mapM_ok (P := fun done ds t => ds = s.valuesOf done ∧ t = s) ⟨rfl, rfl⟩ ?_ h
  rintro done ds b t v t' - ⟨rfl, rfl⟩ hv
  obtain ⟨rfl, rfl⟩ := Law.value?_ok hv
  exact ⟨by simp [State.valuesOf], rfl⟩

theorem restore_ok {vs : List (Option Operand)} (h : restore bs vs names s = .ok ((), s')) :
    s' = { s with values := restored s.values (bs.zip vs) } := by
  unfold restore at h
  generalize bs.zip vs = entries at h ⊢
  induction entries generalizing s with
  | nil =>
    cases h
    rfl
  | cons e rest ih =>
    rw [List.forM] at h
    obtain ⟨_, s1, e1, h1⟩ := bind_ok h
    cases e1
    exact ih h1

/-! ## Arms -/

/-- The site of the arms of a branch. -/
def Site.inArm (c : Site) (n : StmtId) : Site := { c with parent := some n, nest := c.nest + 1 }

/-- The state in which a branch with one arm stands at the cursor. -/
def State.emitBranch (s : State) (c : Site) (cond : Operand) (pos : Position) : State :=
  { s with
    program := (s.program.addStmt
      { action := .branch cond s.program.blocks.size none none, block := s.block, parent := c.parent,
        pos }).place s.block s.program.stmts.size }

/-- The state in which an arm of branch `n` starts. -/
def State.startArm (s : State) (c : Site) (n : StmtId) : State :=
  { s with
    program := s.program.addBlock c.func (some n)
    block := s.program.blocks.size
    terminated := false }

/-- The state behind an arm that ended in another state, with bindings that have their values again. -/
def State.leaveArm (s t : State) (entries : List (BindingId × Option Operand)) : State :=
  { t with block := s.block, terminated := s.terminated, values := restored t.values entries }

/-- The state in which branch `n` has got a second arm. -/
def State.addArm (s : State) (n : StmtId) (cond : Operand) (first second : BlockId) : State :=
  { s with
    program := s.program.modifyStmt n fun x => { x with action := .branch cond first (some second) none } }

/-- The state in which a block is continued by the block of the cursor. -/
def State.continueFrom (s : State) (c : Site) (b : BlockId) : State :=
  { s with
    program := (s.program.addBlock c.func (s.program.block b).parent).link b s.program.blocks.size
    block := s.program.blocks.size }

/-- The arm that a run ends as, unless control cannot reach its end. -/
def armAfter (tracked : List BindingId) (t : State) : Option Arm :=
  if t.terminated then none else some ⟨t.valuesOf tracked, some t.block⟩

/-- An arm runs from a new block of the branch. -/
theorem lowerArm_ok {n : StmtId} {before : List (Option Operand)} {arm : Site → Lower Unit} {b : BlockId}
    {r : Option Arm} (h : lowerArm c n tracked before arm names s = .ok ((b, r), s')) :
    b = s.program.blocks.size ∧ ∃ t,
      arm (c.inArm n) names (s.startArm c n) = .ok ((), t) ∧ r = armAfter tracked t ∧
      s' = s.leaveArm t (tracked.zip before) := by
  obtain ⟨b', s1, e1, h1⟩ := bind_ok h
  rw [newBlock_apply] at e1
  cases e1
  obtain ⟨⟨_, last, terminated⟩, s2, e2, h2⟩ := bind_ok h1
  obtain ⟨_, t, ht, hr, hs2⟩ := within_ok e2
  cases hr
  obtain ⟨vs, s3, e3, h3⟩ := bind_ok h2
  obtain ⟨rfl, rfl⟩ := mapM_value?_ok e3
  obtain ⟨_, s4, e4, h4⟩ := bind_ok h3
  have hs4 := restore_ok e4
  cases h4
  subst hs2
  exact ⟨rfl, t, ht, rfl, hs4⟩

theorem lowerArm_same {n : StmtId} {before : List (Option Operand)} {arm arm' : Site → Lower Unit}
    (h : arm' (c.inArm n) names (s.startArm c n) = arm (c.inArm n) names (s.startArm c n)) :
    lowerArm c n tracked before arm' names s = lowerArm c n tracked before arm names s := by
  refine bind_eq_bind rfl fun b s1 e1 => ?_
  rw [newBlock_apply] at e1
  cases e1
  exact bind_eq_bind (within_same h) fun _ _ _ => rfl

/-- What happens behind the arms of a branch. -/
private theorem behindArms_ok {n : StmtId} {b : BlockId} {arms : List Arm}
    (h : (do
      continueFrom c b
      if arms.isEmpty then modify fun s => { s with terminated := true }
      else mergeBindings c n pos arms tracked 0 : Lower Unit) names s = .ok ((), s')) :
    if arms.isEmpty then s' = { s.continueFrom c b with terminated := true }
    else mergeBindings c n pos arms tracked 0 names (s.continueFrom c b) = .ok ((), s') := by
  obtain ⟨_, s1, e1, h1⟩ := bind_ok h
  rw [continueFrom_apply] at e1
  cases e1
  split at h1
  · next hempty =>
    rw [if_pos hempty]
    cases h1
    rfl
  · next hempty =>
    rw [if_neg hempty]
    exact h1

/-- What happens where a branch has a second arm, and where it has none. -/
def SecondArm (c : Site) (cond : Operand) (elseArm : Option (Site → Lower Unit))
    (Run : (Site → Lower Unit) → State → State → Prop) (tracked : List BindingId) (s s1 s2 : State)
    (second : Option Arm) : Prop :=
  (elseArm = none ∧ s2 = s1 ∧ second = some ⟨s.valuesOf tracked, none⟩) ∨
    ∃ arm t, elseArm = some arm ∧ Run arm (s1.startArm c s.program.stmts.size) t ∧
      second = armAfter tracked t ∧
      s2 = (s1.leaveArm t (tracked.zip (s.valuesOf tracked))).addArm s.program.stmts.size cond
        s.program.blocks.size s1.program.blocks.size

/-- What happens in a branch. -/
def RunsBranch (names : Names) (c : Site) (cond : Operand) (thenArm : Site → Lower Unit)
    (elseArm : Option (Site → Lower Unit)) (pos : Position) (tracked : List BindingId) (s s' : State) : Prop :=
  ∃ t s1 second s2,
    thenArm (c.inArm s.program.stmts.size) names
      ((s.emitBranch c cond pos).startArm c s.program.stmts.size) = .ok ((), t) ∧
    s1 = (s.emitBranch c cond pos).leaveArm t (tracked.zip (s.valuesOf tracked)) ∧
    SecondArm c cond elseArm
      (fun arm u v => arm (c.inArm s.program.stmts.size) names u = .ok ((), v)) tracked s s1 s2 second ∧
    (if ((armAfter tracked t).toList ++ second.toList).isEmpty then
      s' = { s2.continueFrom c s.block with terminated := true }
    else
      mergeBindings c s.program.stmts.size pos ((armAfter tracked t).toList ++ second.toList) tracked 0
        names (s2.continueFrom c s.block) = .ok ((), s'))

/-- Lowering a branch runs its arms one after the other, and then merges the values at their ends; with arms
that do the same it does the same. -/
theorem branch_alike {A : Prop} (thenArm' : Site → Lower Unit)
    (elseArm' : Option (Site → Lower Unit))
    (htracked : tracked = visibleBindings names c ++ extra)
    (hthen : A → thenArm' (c.inArm s.program.stmts.size) names
        ((s.emitBranch c cond pos).startArm c s.program.stmts.size) =
      thenArm (c.inArm s.program.stmts.size) names
        ((s.emitBranch c cond pos).startArm c s.program.stmts.size))
    (helse : Option.Rel (fun arm arm' => A → ∀ t,
      thenArm (c.inArm s.program.stmts.size) names
        ((s.emitBranch c cond pos).startArm c s.program.stmts.size) = .ok ((), t) →
      arm' (c.inArm s.program.stmts.size) names
          (((s.emitBranch c cond pos).leaveArm t (tracked.zip (s.valuesOf tracked))).startArm c
            s.program.stmts.size) =
        arm (c.inArm s.program.stmts.size) names
          (((s.emitBranch c cond pos).leaveArm t (tracked.zip (s.valuesOf tracked))).startArm c
            s.program.stmts.size)) elseArm elseArm') :
    Alike A names s (branch c cond thenArm elseArm extra pos) (branch c cond thenArm' elseArm' extra pos) fun s' _ =>
      RunsBranch names c cond thenArm elseArm pos tracked s s' := by
  subst htracked
  refine .step fun bs t1 e1 => ?_
  obtain ⟨rfl, rfl⟩ := visible_ok e1
  refine .step fun before t2 e2 => ?_
  obtain ⟨rfl, rfl⟩ := mapM_value?_ok e2
  refine .step fun st t3 e3 => ?_
  obtain ⟨rfl, rfl⟩ := get_ok e3
  refine .step fun p t4 e4 => ?_
  obtain ⟨rfl, rfl⟩ := program_ok e4
  refine .step fun n t5 e5 => ?_
  rw [emit_apply] at e5
  cases e5
  refine .next (fun hA => lowerArm_same (hthen hA)) fun r s1 e6 => ?_
  obtain ⟨b, first⟩ := r
  obtain ⟨-, t, ht, rfl, rfl⟩ := lowerArm_ok e6
  cases helse with
  | none => exact .of_gives fun e => ⟨t, _, _, _, ht, rfl, .inl ⟨rfl, rfl, rfl⟩, behindArms_ok e⟩
  | some harm =>
    refine .next (fun hA => lowerArm_same (harm hA t ht)) fun r s2 e7 => ?_
    obtain ⟨b', second⟩ := r
    obtain ⟨rfl, u, hu, rfl, rfl⟩ := lowerArm_ok e7
    refine .step fun _ s3 e8 => ?_
    cases e8
    exact .of_gives fun e => ⟨t, _, _, _, ht, rfl, .inr ⟨_, u, rfl, hu, rfl, rfl⟩, behindArms_ok e⟩

theorem branch_ok (htracked : tracked = visibleBindings names c ++ extra)
    (h : branch c cond thenArm elseArm extra pos names s = .ok ((), s')) :
    RunsBranch names c cond thenArm elseArm pos tracked s s' := by
  refine (branch_alike (A := False) thenArm elseArm htracked nofun ?_).gives h
  cases elseArm with
  | none => exact .none
  | some => exact .some nofun

/-! ## Merging -/

/-- The state while the values at the ends of the arms of branch `n` are merged. -/
structure Merging (strict : Prop) (names : Names) (c : Site) (p : Program) (b : BlockId) (n : StmtId)
    (ends : List BlockId) (t : State) : Prop where
  owned : Program.Owned strict True p b n t.program
  ends : ∀ e, e ∈ ends → p.blocks.size ≤ e ∧ Program.Tail strict t.program c.func (some n) e
  new : p.blocks.size ≤ t.block
  cursor : Program.Tail strict t.program c.func c.parent t.block
  values : names.bindings.size ≤ t.values.size
  running : strict → t.terminated = false

namespace Merging

variable {p : Program} {b : BlockId} {n : StmtId} {ends : List BlockId}

/-- The values of the bindings do not matter. -/
theorem setValue (h : Merging strict names c p b n ends t) {r : BindingId} {v : Option Operand}
    (hs : Lowering.setValue r v names t = .ok ((), t')) : Merging strict names c p b n ends t' := by
  cases hs
  exact ⟨h.owned, h.ends, h.new, h.cursor, by simpa using h.values, h.running⟩

/-- A change of the program that keeps the owner and the blocks that code can be added to. -/
private theorem change (h : Merging strict names c p b n ends t) {q : Program}
    (ho : Program.Owned strict True p b n q)
    (ht : ∀ f x e, p.blocks.size ≤ e → Program.Tail strict t.program f x e → Program.Tail strict q f x e)
    {u : State} (hu : u.program = q) (hb : u.block = t.block) (hv : u.values = t.values)
    (hs : u.terminated = t.terminated) : Merging strict names c p b n ends u := by
  subst hu
  constructor
  case owned => exact ho
  case ends => exact fun e he => ⟨(h.ends e he).1, ht _ _ e (h.ends e he).1 (h.ends e he).2⟩
  case new =>
    rw [hb]
    exact h.new
  case cursor =>
    rw [hb]
    exact ht _ _ _ h.new h.cursor
  case values =>
    rw [hv]
    exact h.values
  case running =>
    rw [hs]
    exact h.running

/-- The parent of the branch can own blocks. -/
private theorem parent_owner (h : Merging strict names c p b n ends t) (x : StmtId) (hx : c.parent = some x) :
    t.program.IsOwner x := by
  refine (h.owned.built.blockOwner t.block x ?_).1
  rw [h.cursor.parent]
  exact hx

/-- Places a statement that stands nowhere in front of the branch. -/
private theorem insertBefore (h : Merging strict names c p b n ends t) {x : StmtId} {y : IR.Stmt}
    (hx : t.program.Fits b x y) (hblocks : y.action.blocks = []) (hends : y.action.endsBlock = false)
    (hs : Lowering.insertBefore n x names t = .ok ((), t')) : Merging strict names c p b n ends t' := by
  obtain ⟨front, hfront⟩ := h.owned.last
  have hn : n ∉ front := by
    have hnodup := h.owned.built.nodup b
    rw [hfront] at hnodup
    exact fun hm => (List.nodup_append.mp hnodup).2.2 n hm n List.mem_cons_self rfl
  have ht' := insertBefore_ok (by rw [h.owned.home]; exact hfront) hn hs
  rw [h.owned.home] at ht'
  refine h.change (h.owned.insert hfront hx hblocks hends) (fun f y e he hte => hte.setStmts _ ?_) (by rw [ht']) (by rw [ht']) (by rw [ht']) (by rw [ht'])
  exact Nat.ne_of_gt (Nat.lt_of_lt_of_le h.owned.lt he)

/-- The definition of a merging temp. -/
theorem newMerge (h : Merging strict names c p b n ends t) (hc : (p.block b).parent = c.parent)
    {m : TempId} {d : StmtId} {t1 : State}
    (h1 : Lowering.newMerge c (t.program.stmt n).block pos names t = .ok ((m, d), t1))
    (h2 : Lowering.insertBefore n d names t1 = .ok ((), t')) :
    Merging strict names c p b n ends t' := by
  rw [h.owned.home, newMerge_apply] at h1
  cases h1
  have hlt : b < t.program.blocks.size :=
    Nat.lt_of_lt_of_le h.owned.lt h.owned.program.blocks_le
  generalize hx :
    ({ action := .define ⟨b, (t.program.block b).slots.size⟩ (.merge []) .undecided,
       block := b, parent := c.parent, pos } : IR.Stmt) = x at h2
  have hself := t.program.stmt_addStmt_self x
  have hstmts := (t.program.addStmt x).block_addSlot_of_eq (·.stmts) b b t.program.stmts.size
    fun _ _ => rfl
  have h3 : Merging strict names c p b n ends
      { t with program := (t.program.addStmt x).addSlot b t.program.stmts.size } := by
    refine h.change ((h.owned.addStmt x ?_ ?_ ?_).addSlot b _ hlt (by simp) ?_)
      (fun f y e _ hte => (hte.addStmt h.owned.built x).reslot (.addSlot _ b _)) rfl rfl rfl rfl
    · rw [← hx]
      exact h.parent_owner
    · rw [← hx]
      rfl
    · rw [← hx]
      rfl
    · rw [hself, ← hx]
      rfl
  have hparent := (h3.owned.program.parent b h.owned.lt).trans hc
  subst hx
  refine h3.insertBefore ⟨Nat.lt_of_lt_of_le h.owned.lt h3.owned.program.blocks_le, by simp,
    hself, ?_, rfl, hparent.symm, fun u hu => ?_, nofun, nofun⟩ rfl rfl h2
  · rw [hstmts]
    exact fun hm => Nat.lt_irrefl _ (h.owned.built.home b _ hm).1
  · cases hu
    rw [(t.program.addStmt _).definition?_addSlot b _ _ hlt]
    exact if_pos rfl

/-- A copy that stands nowhere. -/
private theorem copyInto (h : Merging strict names c p b n ends t) {m : TempId} {v : Option Operand}
    {e : BlockId} {q : Option StmtId} {x : StmtId} (hq : ∀ y, q = some y → t.program.IsOwner y)
    (hs : Lowering.copyInto m v e q pos names t = .ok (x, t')) :
    Merging strict names c p b n ends t' ∧ x < t'.program.stmts.size ∧
      (∀ d, x ∉ (t'.program.block d).stmts) ∧
      t'.program.stmt x = { action := .copy m v, block := e, parent := q, pos } := by
  obtain ⟨rfl, d, u, k, cs, tracking, hd, ha, rfl⟩ := copyInto_ok hs
  have hlt := (h.owned.built.definition m d hd).1
  refine ⟨h.change (h.owned.addCopy hd ha hq rfl rfl rfl) (fun f y e _ hte =>
    hte.addCopy h.owned.built hlt ha) rfl rfl rfl rfl, by simp, fun d hm => ?_, ?_⟩
  · exact Nat.lt_irrefl _ (h.owned.built.home d _ hm).1
  · rw [t.program.stmt_addCopy d _ _ _ _ hlt, if_pos rfl]

theorem copyArm (h : Merging strict names c p b n ends t) (hc : (p.block b).parent = c.parent)
    {m : TempId} {last : Option BlockId} {v : Option Operand} (hlast : ∀ e, last = some e → e ∈ ends)
    (hs : Lowering.copyArm c n m pos last v names t = .ok ((), t')) :
    Merging strict names c p b n ends t' := by
  cases last with
  | none =>
    obtain ⟨q, t1, e1, h1⟩ := bind_ok hs
    obtain ⟨rfl, rfl⟩ := program_ok e1
    obtain ⟨x, t2, e2, h2⟩ := bind_ok h1
    obtain ⟨h3, hx, hnew, hstmt⟩ := h.copyInto h.parent_owner e2
    have hparent := (h3.owned.program.parent b h.owned.lt).trans hc
    exact h3.insertBefore ⟨Nat.lt_of_lt_of_le h.owned.lt h3.owned.program.blocks_le, hx, hstmt, hnew b, h.owned.home,
      hparent.symm, nofun, nofun, nofun⟩ rfl rfl h2
  | some e =>
    obtain ⟨x, t1, e1, h1⟩ := bind_ok hs
    obtain ⟨h2, hx, hnew, hstmt⟩ := h.copyInto (fun y hy => by cases hy; exact h.owned.owner) e1
    obtain ⟨hle, hte⟩ := h2.ends e (hlast e rfl)
    have hends : (t1.program.stmt x).action.endsBlock = false := by
      rw [hstmt]
      rfl
    rw [append_apply] at h1
    cases h1
    exact h2.change (h2.owned.place hle ⟨hte.lt, hx, hstmt, hnew e, rfl, hte.parent.symm, nofun, nofun, nofun⟩ hte.clear
      hte.plain) (fun f y d _ htd => htd.place hte.lt hends) rfl rfl rfl rfl

theorem mergeBinding (h : Merging strict names c p b n ends t) (hc : (p.block b).parent = c.parent)
    {r : BindingId} {list : List (Option BlockId × Option Operand)}
    (hlist : ∀ x, x ∈ list → ∀ e, x.1 = some e → e ∈ ends)
    (hs : Lowering.mergeBinding c n pos r list names t = .ok ((), t')) :
    Merging strict names c p b n ends t' := by
  unfold Lowering.mergeBinding at hs
  split at hs
  · cases hs
    exact h
  · exact h.setValue hs
  · split at hs
    · exact h.setValue hs
    · obtain ⟨q, t1, e1, h1⟩ := bind_ok hs
      obtain ⟨rfl, rfl⟩ := program_ok e1
      obtain ⟨⟨m, d⟩, t2, e2, h2⟩ := bind_ok h1
      obtain ⟨_, t3, e3, h3⟩ := bind_ok h2
      have k3 := h.newMerge hc e2 e3
      obtain ⟨_, t4, e4, h4⟩ := bind_ok h3
      have k4 := forM_ok (P := Merging strict names c p b n ends) k3
        (fun x hx u u' hu hrun => hu.copyArm hc (hlist x hx) hrun) e4
      exact k4.setValue h4

theorem mergeBindings (h : Merging strict names c p b n ends t) (hc : (p.block b).parent = c.parent)
    {arms : List Arm} (harms : ∀ a, a ∈ arms → ∀ e, a.last = some e → e ∈ ends) {i : Nat}
    (hs : Lowering.mergeBindings c n pos arms bs i names t = .ok ((), t')) :
    Merging strict names c p b n ends t' := by
  induction bs generalizing t i with
  | nil =>
    cases hs
    exact h
  | cons r bs ih =>
    obtain ⟨_, t1, e1, h1⟩ := bind_ok hs
    refine ih (h.mergeBinding hc (fun x hx e he => ?_) e1) h1
    obtain ⟨a, ha, rfl⟩ := List.mem_map.mp hx
    exact harms a ha e he

end Merging

/-! ## The structure behind a branch -/

/-- A run of the code of an arm of branch `n`, with what held where it started and what it did. -/
structure ArmRun (strict : Prop) (names : Names) (c : Site) (n : StmtId) (J : State → Prop)
    (G : State → State → Prop) (arm : Site → Lower Unit) (s t : State) : Prop where
  ready : Ready strict names (c.inArm n) s
  run : arm (c.inArm n) names s = .ok ((), t)
  passed : Passed strict names (c.inArm n) t
  moves : Moves s t
  finish : J t
  step : G s t

section

variable {p : Program} {b e : BlockId} {n : StmtId} {arm : Site → Lower Unit} {I J : State → Prop}
  {G : State → State → Prop}

/-- What arms do that start where further code runs. -/
def ArmRuns (strict : Prop) (names : Names) (c : Site) (n : StmtId) (I J : State → Prop)
    (G : State → State → Prop) (arm : Site → Lower Unit) : Prop :=
  ∀ t t', Ready strict names (c.inArm n) t → I t → arm (c.inArm n) names t = .ok ((), t') →
    (Passed strict names (c.inArm n) t' ∧ Moves t t') ∧ J t' ∧ G t t'

/-- An arm starts in an empty block of the branch. -/
private theorem ready_startArm
    (howned : Program.Owned strict False p b n (s.program.addBlock c.func (some n)))
    (hbranch : (s.program.stmt n).action.isLoop = false) (hparent : (p.block b).parent = c.parent)
    (hloop : ∀ f, c.loop = some f → p.Innermost c.parent f.loop)
    (hv : names.bindings.size ≤ s.values.size) (ha : names.assigned.Within p.assigned) :
    Ready strict names (c.inArm n) (s.startArm c n) := by
  refine .of_tail howned.built (.of_new s.program c.func (some n))
    (fun f hf => .outward hbranch ?_) hv (fun z hz => howned.program.assigned z (ha z hz)) fun _ => rfl
  rw [State.startArm, howned.parent, hparent]
  exact howned.program.innermost (hloop f hf)

/-- What an arm leaves behind. -/
private theorem ArmRun.owned (h : ArmRun strict names c n J G arm (s.startArm c n) t)
    (howned : Program.Owned strict False p b n (s.program.addBlock c.func (some n)))
    (hle : p.blocks.size ≤ s.program.blocks.size) :
    Program.Owned strict False p b n t.program ∧
    ∀ tracked a, armAfter tracked t = some a → ∃ d, a.last = some d ∧ s.program.blocks.size ≤ d ∧
      Program.Tail strict t.program c.func (some n) d := by
  refine ⟨howned.run h.moves.program hle h.passed.built h.moves.joined, fun tracked a ha => ?_⟩
  unfold armAfter at ha
  split at ha
  · cases ha
  · next hrunning =>
    cases ha
    refine ⟨t.block, rfl, ?_, h.passed.lt, h.passed.func, h.passed.parent, h.passed.next, fun hst =>
      h.passed.clear hst (by simpa using hrunning), h.passed.plain⟩
    rcases h.moves.block with hb | hb
    · exact Nat.le_of_eq hb.symm
    · exact Nat.le_trans (Nat.le_succ _) (by simpa [State.startArm] using hb)

/-- The owner itself stays as it is while its blocks are filled. -/
private theorem stmt_eq_of_extends {q r : Program} (hr : q.Extends e r) (hn : n < q.stmts.size)
    (hb : (q.stmt n).action.blocks ≠ []) : r.stmt n = q.stmt n := by
  rcases hr.stmt n hn with h | ⟨t, cs, ds, k, l, ha, -⟩
  · exact h
  · rw [ha] at hb
    exact (hb rfl).elim

/-- The first arm of a branch starts where code runs. -/
theorem Ready.startFirst (h : Ready strict names c s) (cond : Operand) (pos : Position) :
    Program.Owned strict False s.program s.block s.program.stmts.size
      ((s.emitBranch c cond pos).startArm c s.program.stmts.size).program ∧
    (((s.emitBranch c cond pos).startArm c s.program.stmts.size).program.block s.block).next = none ∧
    Ready strict names (c.inArm s.program.stmts.size)
      ((s.emitBranch c cond pos).startArm c s.program.stmts.size) := by
  obtain ⟨hown, hnext⟩ := h.own
    (x := { action := .branch cond s.program.blocks.size none none, block := s.block,
            parent := c.parent, pos }) 1 rfl rfl rfl rfl rfl (List.cons_ne_nil _ _) (by simp [Action.blocks])
    (fun d hd => by
      cases List.mem_singleton.mp hd
      exact ⟨Nat.le_refl _, Nat.lt_succ_self _⟩)
  refine ⟨hown, hnext, ready_startArm (s := s.emitBranch c cond pos) hown ?_ h.parent h.loop h.values h.assigned⟩
  simp [State.emitBranch, Action.isLoop]

/-- What the first arm of a branch leaves behind. -/
private theorem Ready.behindFirst (h : Ready strict names c s) (hb : t.program.Built strict)
    (hm : Moves ((s.emitBranch c cond pos).startArm c s.program.stmts.size) t) :
    Program.Owned strict False s.program s.block s.program.stmts.size t.program ∧
    t.program.stmt s.program.stmts.size =
      { action := .branch cond s.program.blocks.size none none, block := s.block, parent := c.parent, pos } := by
  obtain ⟨hown, -, -⟩ := h.startFirst cond pos
  refine ⟨hown.run hm.program (by simp [State.startArm, State.emitBranch]) hb hm.joined, ?_⟩
  rw [stmt_eq_of_extends hm.program hown.owner.1 hown.owner.2]
  exact s.program.stmt_addStmt_self _

/-- A second block of a branch. -/
private theorem Ready.ownSecond (h : Ready strict names c s)
    (howned : Program.Owned strict False s.program s.block n t.program) :
    Program.Owned strict False s.program s.block n (t.program.addBlock c.func (some n)) := by
  refine howned.addBlock c.func fun y hy => ?_
  cases hy
  refine ⟨howned.owner, ?_⟩
  rw [howned.home, howned.program.func _ h.lt]
  exact h.func

/-- The second arm of a branch starts where code runs. -/
theorem Ready.startSecond (h : Ready strict names c s)
    (hp : Passed strict names (c.inArm s.program.stmts.size) t)
    (hm : Moves ((s.emitBranch c cond pos).startArm c s.program.stmts.size) t)
    (entries : List (BindingId × Option Operand)) : Ready strict names (c.inArm s.program.stmts.size)
      (((s.emitBranch c cond pos).leaveArm t entries).startArm c s.program.stmts.size) := by
  obtain ⟨howned, hstmt⟩ := h.behindFirst hp.built hm
  refine ready_startArm (s := (s.emitBranch c cond pos).leaveArm t entries) (h.ownSecond howned) ?_ h.parent
    h.loop (by simpa [State.leaveArm] using hp.values) h.assigned
  rw [State.leaveArm, hstmt]
  rfl

/-- The state once the arms were lowered, and before the cursor moves behind the branch. -/
structure ArmsDone (strict : Prop) (names : Names) (c : Site) (p : Program) (b : BlockId) (n : StmtId)
    (arms : List Arm) (t : State) : Prop where
  owned : Program.Owned strict False p b n t.program
  next : (t.program.block b).next = none
  ends : ∀ a, a ∈ arms → ∀ d, a.last = some d → p.blocks.size ≤ d ∧
    Program.Tail strict t.program c.func (some n) d
  values : names.bindings.size ≤ t.values.size

/-- Moving the cursor behind a branch. -/
private theorem ArmsDone.merging {arms : List Arm} (h : ArmsDone strict names c p b n arms t)
    (hparent : (p.block b).parent = c.parent) (hfunc : (p.block b).func = c.func)
    (hrunning : strict → t.terminated = false) :
    Merging strict names c p b n (arms.filterMap Arm.last) (t.continueFrom c b) := by
  have hlt : b < (t.program.addBlock c.func (t.program.block b).parent).blocks.size := by
    rw [Program.blocks_size_addBlock]
    exact Nat.lt_succ_of_lt (Nat.lt_of_lt_of_le h.owned.lt h.owned.program.blocks_le)
  obtain ⟨howned, htail⟩ := h.owned.continue h.next hfunc
  constructor
  case owned => exact howned
  case ends =>
    intro d hd
    obtain ⟨a, ha, hd⟩ := List.mem_filterMap.mp hd
    obtain ⟨hle, hta⟩ := h.ends a ha d hd
    exact ⟨hle, (hta.addBlock _ _).link hlt (Nat.ne_of_gt (Nat.lt_of_lt_of_le h.owned.lt hle))⟩
  case new => exact h.owned.program.blocks_le
  case cursor => exact hparent ▸ htail
  case values => exact h.values
  case running => exact hrunning

theorem Merging.moves {ends : List BlockId} (h : Merging strict names c s.program s.block n ends t) {u : State}
    (hp : u.program = t.program) (hb : u.block = t.block) : Moves s u :=
  .of_eq ⟨h.owned.program, .inr h.new, fun x hx => h.owned.joined x hx (.inr trivial)⟩ hp hb

/-- The cursor behind a branch. -/
theorem Merging.placed {ends : List BlockId} (h : Merging strict names c p b n ends t)
    (hloop : ∀ f, c.loop = some f → p.Innermost c.parent f.loop) (ha : names.assigned.Within p.assigned) :
    Placed strict names c t :=
  { h.cursor with
    built := h.owned.built
    loop := fun f hf => h.owned.program.innermost (hloop f hf)
    values := h.values
    assigned := fun z hz => h.owned.program.assigned z (ha z hz) }

/-- The second arm of a branch, behind the first one. -/
private theorem arms_done
    {second : Option Arm} {s1 s2 : State} {a : Option Arm} {x : IR.Stmt}
    (h : Ready strict names c s) (hn : n = s.program.stmts.size)
    (hs : SecondArm c cond elseArm (fun arm u v => arm (c.inArm s.program.stmts.size) names u = .ok ((), v))
      tracked s s1 s2 second)
    (hx : x.action = .branch cond s.program.blocks.size none none) (hstmt : s1.program.stmt n = x)
    (howned : Program.Owned strict False s.program s.block n s1.program)
    (hnext : (s1.program.block s.block).next = none)
    (hlt : s.program.blocks.size < s1.program.blocks.size)
    (hthen : (s1.program.block s.program.blocks.size).parent = some n ∧
      (s1.program.block s.program.blocks.size).prev = none)
    (hv : names.bindings.size ≤ s1.values.size)
    (hends : ∀ r, a = some r → ∃ d, r.last = some d ∧ s.program.blocks.size ≤ d ∧
      Program.Tail strict s1.program c.func (some n) d)
    (hI : I (s1.startArm c n))
    (harm : ∀ arm, elseArm = some arm → ArmRuns strict names c n I J G arm) :
    SecondArm c cond elseArm (ArmRun strict names c n J G) tracked s s1 s2 second ∧
    ArmsDone strict names c s.program s.block n (a.toList ++ second.toList) s2 ∧
    s2.terminated = s1.terminated := by
  subst hn
  have hle := Nat.le_of_lt hlt
  rcases hs with ⟨hnone, rfl, rfl⟩ | ⟨arm, t, hsome, hrun, rfl, rfl⟩
  · refine ⟨.inl ⟨hnone, rfl, rfl⟩, ⟨howned, hnext, fun r hr d hd => ?_, hv⟩, rfl⟩
    rcases List.mem_append.mp hr with hr | hr
    · obtain ⟨d', hd', hle, htail⟩ := hends r (Option.mem_toList.mp hr)
      rw [hd'] at hd
      cases hd
      exact ⟨hle, htail⟩
    · cases List.mem_singleton.mp hr
      cases hd
  · have howned' := h.ownSecond howned
    have hready := ready_startArm howned' (by rw [hstmt, hx]; rfl) h.parent h.loop hv h.assigned
    obtain ⟨⟨hpassed, hm⟩, hJ, hG⟩ := harm arm hsome _ _ hready hI hrun
    have harmRun : ArmRun strict names c s.program.stmts.size J G arm
        (s1.startArm c s.program.stmts.size) t := ⟨hready, hrun, hpassed, hm, hJ, hG⟩
    obtain ⟨o2, ends2⟩ := harmRun.owned howned' hle
    have hstmt2 : t.program.stmt s.program.stmts.size = x := by
      rw [stmt_eq_of_extends hm.program howned'.owner.1 howned'.owner.2]
      exact hstmt
    have hnext2 : (t.program.block s.block).next = none := by
      rw [howned'.next_run hm.program hle, Program.block_addBlock,
        if_neg (Nat.ne_of_lt (Nat.lt_of_lt_of_le h.lt hle))]
      exact hnext
    have hthen2 : (t.program.block s.program.blocks.size).parent = some s.program.stmts.size ∧
        (t.program.block s.program.blocks.size).prev = none := by
      rw [hm.program.parent _ (by simpa [State.startArm] using Nat.lt_succ_of_lt hlt),
        hm.program.prev _ (by simpa [State.startArm] using Nat.lt_succ_of_lt hlt), State.startArm,
        Program.block_addBlock, if_neg (Nat.ne_of_lt hlt)]
      exact hthen
    have helse : (t.program.block s1.program.blocks.size).parent = some s.program.stmts.size ∧
        (t.program.block s1.program.blocks.size).prev = none := by
      rw [hm.program.parent _ (by simp [State.startArm]), hm.program.prev _ (by simp [State.startArm]),
        State.startArm, Program.block_addBlock, if_pos rfl]
      exact ⟨rfl, rfl⟩
    have hbranch : (Action.branch cond s.program.blocks.size (some s1.program.blocks.size) none).endsBlock =
        (t.program.stmt s.program.stmts.size).action.endsBlock := by
      rw [hstmt2, hx]
      rfl
    have hbranches : (t.program.stmt s.program.stmts.size).action.blocks ≠ [] := by
      rw [hstmt2, hx]
      exact List.cons_ne_nil _ _
    have o3 := o2.setAction (.branch cond s.program.blocks.size (some s1.program.blocks.size) none)
      (by rw [hstmt2, hx]; rfl) (by rw [hstmt2, hx]; rfl) (by rw [hstmt2, hx]; rfl) hbranch
      (List.cons_ne_nil _ _) (by simpa [Action.blocks] using Nat.ne_of_lt hlt) (fun d hd => by
        rcases List.mem_cons.mp hd with rfl | hd
        · exact hthen2
        · cases List.mem_singleton.mp hd
          exact helse) rfl
    refine ⟨.inr ⟨arm, t, hsome, harmRun, rfl, rfl⟩, ⟨o3, hnext2, fun r hr d hd => ?_,
      by simpa [State.addArm, State.leaveArm] using hpassed.values⟩, rfl⟩
    rcases List.mem_append.mp hr with hr | hr
    · obtain ⟨d', hd', hle, htail⟩ := hends r (Option.mem_toList.mp hr)
      rw [hd'] at hd
      cases hd
      refine ⟨hle, Program.Tail.setAction ?_ hbranch hbranches⟩
      exact (htail.addBlock _ _).run howned'.built hm.program (Nat.ne_of_lt htail.lt)
    · obtain ⟨d', hd', hle', htail⟩ := ends2 tracked r (Option.mem_toList.mp hr)
      rw [hd'] at hd
      cases hd
      exact ⟨Nat.le_trans hle hle', htail.setAction hbranch hbranches⟩

/-- The runs of the arms of a branch, and the state in which the values at their ends are merged. -/
theorem branch_runs

    (h : Ready strict names c s) (htracked : tracked = visibleBindings names c ++ extra)
    (harms : ∀ arm, arm = thenArm ∨ elseArm = some arm →
      ArmRuns strict names c s.program.stmts.size I J G arm)
    (hfirst : I ((s.emitBranch c cond pos).startArm c s.program.stmts.size))
    (hsecond : ∀ t, ArmRun strict names c s.program.stmts.size J G thenArm
        ((s.emitBranch c cond pos).startArm c s.program.stmts.size) t →
      I (((s.emitBranch c cond pos).leaveArm t (tracked.zip (s.valuesOf tracked))).startArm c
        s.program.stmts.size))
    (hs : branch c cond thenArm elseArm extra pos names s = .ok ((), s')) :
    ∃ t s1 second s2,
      ArmRun strict names c s.program.stmts.size J G thenArm
        ((s.emitBranch c cond pos).startArm c s.program.stmts.size) t ∧
      s1 = (s.emitBranch c cond pos).leaveArm t (tracked.zip (s.valuesOf tracked)) ∧
      SecondArm c cond elseArm (ArmRun strict names c s.program.stmts.size J G) tracked s s1 s2 second ∧
      ArmsDone strict names c s.program s.block s.program.stmts.size
        ((armAfter tracked t).toList ++ second.toList) s2 ∧
      Merging strict names c s.program s.block s.program.stmts.size
        (((armAfter tracked t).toList ++ second.toList).filterMap Arm.last)
        (s2.continueFrom c s.block) ∧
      (if ((armAfter tracked t).toList ++ second.toList).isEmpty then
        s' = { s2.continueFrom c s.block with terminated := true }
      else
        mergeBindings c s.program.stmts.size pos ((armAfter tracked t).toList ++ second.toList) tracked 0
          names (s2.continueFrom c s.block) = .ok ((), s')) := by
  obtain ⟨t, s1, second, s2, hrun, rfl, hsec, hend⟩ := branch_ok htracked hs
  obtain ⟨hown, hnext, hready⟩ := h.startFirst cond pos
  have hsize : (s.emitBranch c cond pos).program.blocks.size = s.program.blocks.size := by
    simp [State.emitBranch]
  obtain ⟨⟨hpassed, hm⟩, hJ, hG⟩ := harms thenArm (.inl rfl) _ _ hready hfirst hrun
  have harmRun : ArmRun strict names c s.program.stmts.size J G thenArm
      ((s.emitBranch c cond pos).startArm c s.program.stmts.size) t :=
    ⟨hready, hrun, hpassed, hm, hJ, hG⟩
  obtain ⟨-, ends1⟩ := harmRun.owned hown (Nat.le_of_eq hsize.symm)
  obtain ⟨o1, hstmt⟩ := h.behindFirst hpassed.built hm
  have hblock : ((s.emitBranch c cond pos).startArm c s.program.stmts.size).program.block
      s.program.blocks.size = { func := c.func, parent := some s.program.stmts.size } := by
    rw [← hsize, State.startArm, Program.block_addBlock, if_pos rfl]
  have hlt0 : s.program.blocks.size <
      ((s.emitBranch c cond pos).startArm c s.program.stmts.size).program.blocks.size := by
    simp [State.startArm, hsize]
  have hthen : (t.program.block s.program.blocks.size).parent = some s.program.stmts.size ∧
      (t.program.block s.program.blocks.size).prev = none := by
    rw [hm.program.parent _ hlt0, hm.program.prev _ hlt0, hblock]
    exact ⟨rfl, rfl⟩
  obtain ⟨hsec', hdone, hterminated⟩ := arms_done (a := armAfter tracked t) h rfl hsec
    (x := { action := .branch cond s.program.blocks.size none none, block := s.block,
            parent := c.parent, pos }) rfl hstmt o1 ((hown.next_run hm.program (Nat.le_of_eq hsize.symm)).trans hnext)
    (Nat.lt_of_lt_of_le hlt0 hm.program.blocks_le) hthen (by simpa [State.leaveArm] using hpassed.values)
    (fun r hr => by
      obtain ⟨d, hd, hle, htail⟩ := ends1 tracked r hr
      exact ⟨d, hd, Nat.le_trans (Nat.le_of_eq hsize.symm) hle, htail⟩)
    (hsecond t harmRun) fun arm harm => harms arm (.inr harm)
  refine ⟨t, _, second, s2, harmRun, rfl, hsec', hdone, hdone.merging h.parent h.func ?_, hend⟩
  rw [hterminated]
  exact h.running

/-- A branch keeps the structure of the program when its arms do. -/
theorem branch_passed (h : Ready strict names c s)
    (harms : ∀ arm, arm = thenArm ∨ elseArm = some arm → ∀ t t',
      Ready strict names (c.inArm s.program.stmts.size) t →
      arm (c.inArm s.program.stmts.size) names t = .ok ((), t') →
        Passed strict names (c.inArm s.program.stmts.size) t' ∧ Moves t t')
    (hs : branch c cond thenArm elseArm extra pos names s = .ok ((), s')) :
    Passed strict names c s' ∧ Moves s s' ∧
    ((strict → s'.terminated = false) ∨ elseArm ≠ none ∧
      ∃ t t', Ready strict names (c.inArm s.program.stmts.size) t ∧
        thenArm (c.inArm s.program.stmts.size) names t = .ok ((), t') ∧ t'.terminated = true) := by
  obtain ⟨t, s1, second, s2, hrun, -, hsec, -, hmerging, hend⟩ := branch_runs (I := fun _ => True)
    (J := fun _ => True) (G := fun _ _ => True) h rfl
    (fun arm harm u u' hu _ ha => ⟨harms arm harm u u' hu ha, trivial, trivial⟩) trivial
    (fun _ _ => trivial) hs
  split at hend
  · next hempty =>
    subst hend
    have hplaced := hmerging.placed h.loop h.assigned
    refine ⟨⟨hplaced.of_eq rfl rfl (Nat.le_refl _), fun hst _ => hmerging.cursor.clear hst⟩,
      hmerging.moves rfl rfl, .inr ⟨?_, _, t, hrun.ready, hrun.run, ?_⟩⟩
    · rcases hsec with ⟨-, -, rfl⟩ | ⟨arm, t, rfl, -⟩
      · simp at hempty
      · simp
    · cases hstop : t.terminated with
      | true => rfl
      | false => simp [armAfter, hstop] at hempty
  · have hmerged := hmerging.mergeBindings h.parent (fun a ha e he =>
      List.mem_filterMap.mpr ⟨a, ha, he⟩) hend
    exact ⟨⟨hmerged.placed h.loop h.assigned, fun hst _ => hmerged.cursor.clear hst⟩,
      hmerged.moves rfl rfl, .inl hmerged.running⟩

end

end ScriptOptimizer.Lowering
