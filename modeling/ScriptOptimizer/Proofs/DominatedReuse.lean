import ScriptOptimizer.Proofs.Paths

/-!
# Reused values have been computed

Where a computation becomes a reference to an earlier temp, the temp has been computed on every run that
gets there, in the same round of every loop around its definition. If the computation reads storage that
other statements can write, both definitions stand in one block and nothing between them may write.

The pass walks along the chains of a program with the computations that it may reuse; the invariant of the
walk is that these have been `Done` at the point that it has reached.
-/

namespace ScriptOptimizer

open IR

namespace IR.Program

/-- On every run to a statement another one has run before, in the same round of every loop around it. -/
def RunsBefore (p : Program) (d s : StmtId) : Prop :=
  ∀ f es b rest, p.Runs f es b (s :: rest) → ∃ later earlier, es = later ++ .run d :: earlier ∧
    ∀ q l, (p.stmt q).action = .loop l → p.Within q (p.stmt d).block → .enter l.first ∉ later

/-- Of two statements one stands behind the other in a block, and no live statement between them may
change what volatile operands read. -/
def Undisturbed (p : Program) (d s : StmtId) : Prop :=
  ∃ b xs ys zs, (p.block b).stmts = xs ++ d :: (ys ++ s :: zs) ∧
    ∀ y, y ∈ ys → (p.stmt y).live = true → (p.stmt y).clobbers = false

/-- A live statement of a block defines a temp. -/
structure Computes (p : Program) (d : StmtId) (t : TempId) : Prop where
  live : (p.stmt d).live = true
  placed : d ∈ (p.block (p.stmt d).block).stmts
  define : ∃ v placement, (p.stmt d).action = .define t v placement

/-- A statement is among some others, and none of those behind it may change what volatile operands
read. -/
def Fresh (p : Program) (d : StmtId) (xs : List StmtId) : Prop :=
  ∃ us ys, xs = us ++ d :: ys ∧ ∀ y, y ∈ ys → (p.stmt y).live = true → (p.stmt y).clobbers = false

variable {p : Program} {b : BlockId} {d s : StmtId} {t : TempId} {xs rest : List StmtId}

theorem Computes.blocks_eq (h : p.Computes d t) : (p.stmt d).action.blocks = [] := by
  obtain ⟨v, m, ha⟩ := h.define
  rw [ha]
  rfl

/-- A live definition is the one that its temp has. -/
theorem Computes.definition? (hp : p.Coherent) (h : p.Computes d t) : p.definition? t = some d := by
  obtain ⟨v, m, ha⟩ := h.define
  rcases hp.tied _ d t h.placed (by rw [ha]; rfl) with ht | ⟨hdead, -⟩
  · exact ht
  · rw [h.live] at hdead
    cases hdead

theorem Fresh.append (h : p.Fresh d xs) (hs : (p.stmt s).live = true → (p.stmt s).clobbers = false) :
    p.Fresh d (xs ++ [s]) := by
  obtain ⟨us, ys, rfl, hys⟩ := h
  refine ⟨us, ys ++ [s], by simp, fun y hy => ?_⟩
  rcases List.mem_append.mp hy with hy | hy
  · exact hys y hy
  · rw [List.mem_singleton.mp hy]
    exact hs

theorem Fresh.done (h : p.Fresh d xs) : p.Done d b xs := by
  obtain ⟨us, ys, rfl, -⟩ := h
  exact .ran List.mem_append_cons_self

theorem Fresh.undisturbed (h : p.Fresh d xs) (hs : (p.block b).stmts = xs ++ s :: rest) :
    p.Undisturbed d s := by
  obtain ⟨us, ys, rfl, hys⟩ := h
  exact ⟨b, us, ys, rest, by simpa using hs, hys⟩

/-- What has been done in front of a statement has run before it. -/
theorem Structured.runsBefore (hp : p.Structured) (hd : (p.stmt d).action.blocks = [])
    (hs : (p.block b).stmts = xs ++ s :: rest) (h : p.Done d b xs) : p.RunsBefore d s := by
  intro f es c rest' hr
  obtain ⟨ys, hys⟩ := hr.exists_ran
  have hb : c = b := by
    rw [← (hp.home b s (by rw [hs]; simp)).2, (hp.home c s (by rw [hys]; simp)).2]
  subst hb
  rw [hp.before_unique hs hys] at h
  exact hr.exists_run_in_round hp hd hys h

/-- Every chain ends. -/
theorem Coherent.exists_end (hp : p.Coherent) (b : BlockId) :
    ∃ y, p.OnChain b y ∧ (p.block y).next = none := by
  induction hn : p.blocks.size - b using Nat.strongRecOn generalizing b with
  | _ n ih =>
    cases hb : (p.block b).next with
    | none => exact ⟨b, .head b, hb⟩
    | some c =>
      have hc := (hp.next b c hb).1
      obtain ⟨y, hy, he⟩ := ih (p.blocks.size - c) (hn ▸ Nat.sub_lt_sub_left (p.lt_of_next hb) hc) c rfl
      exact ⟨y, hy.of_next hb, he⟩

end IR.Program

namespace CommonValues

variable {p q : Program} {b c : BlockId} {s : StmtId} {xs rest : List StmtId}

/-- A definition refers to a temp that has been computed before. -/
structure Refers (p : Program) (s : StmtId) (y : IR.Stmt) : Prop where
  live : y.live = (p.stmt s).live
  effects : y.effects = (p.stmt s).effects
  reason : ∃ t v placement prev k isVolatile d b xs rest,
    (p.stmt s).action = .define t v placement ∧ y.action = .define t (.operand (.temp prev)) placement ∧
    key? p v = some (k, isVolatile) ∧ p.Computes d prev ∧ (p.block b).stmts = xs ++ s :: rest ∧
    p.Done d b xs ∧ (isVolatile = true → p.Fresh d xs)

/-- What the pass does to a program. -/
structure Rewrites (p q : Program) : Prop where
  blocks : q.blocks = p.blocks
  functions : q.functions = p.functions
  assigned : q.assigned = p.assigned
  stmt : ∀ s, q.stmt s = p.stmt s ∨ Refers p s (q.stmt s)

/-- The computations of a table have been made at a point. -/
def Available.Done (p : Program) (a : Available) (b : BlockId) (xs : List StmtId) : Prop :=
  ∀ (k : String) prev, a[k]? = some prev → ∃ d, p.Computes d prev ∧ p.Done d b xs

/-- The computations of a table still hold behind some statements of a block. -/
def Available.Fresh (p : Program) (a : Available) (xs : List StmtId) : Prop :=
  ∀ (k : String) prev, a[k]? = some prev → ∃ d, p.Computes d prev ∧ p.Fresh d xs

/-- The state of the pass in a block, behind some statements of it. -/
structure State.At (p : Program) (b : BlockId) (xs : List StmtId) (st : State) : Prop where
  rewrites : Rewrites p st.program
  lasting : st.lasting.Done p b xs
  passing : st.passing.Fresh p xs

/-! ## What the pass leaves alone -/

namespace Rewrites

theorem refl (p : Program) : Rewrites p p := ⟨rfl, rfl, rfl, fun _ => .inl rfl⟩

theorem block_eq (h : Rewrites p q) (b : BlockId) : q.block b = p.block b := by
  rw [Program.block, Program.block, h.blocks]

theorem live_eq (h : Rewrites p q) (s : StmtId) : (q.stmt s).live = (p.stmt s).live := by
  rcases h.stmt s with hs | hs
  · rw [hs]
  · exact hs.live

/-- A definition that is still a computation stays as it is. -/
theorem stmt_eq_of_key (h : Rewrites p q) {t : TempId} {v : Value} {m : Placement} {k : String × Bool}
    (ha : (q.stmt s).action = .define t v m) (hk : key? p v = some k) : q.stmt s = p.stmt s := by
  rcases h.stmt s with h | ⟨-, -, _, _, _, _, _, _, _, _, _, _, -, hy, -⟩
  · exact h
  · rw [ha] at hy
    cases hy
    cases hk

theorem clobbers_eq (h : Rewrites p q) (s : StmtId) : (q.stmt s).clobbers = (p.stmt s).clobbers := by
  rcases h.stmt s with hs | ⟨-, he, t, v, m, _, _, _, _, _, _, _, ha, hy, -⟩
  · rw [hs]
  · simp [Stmt.clobbers, ha, hy, he]

theorem isMerge_eq (h : Rewrites p q) (t : TempId) : q.isMerge t = p.isMerge t := by
  have hdef : q.definition? t = p.definition? t := by
    simp only [Program.definition?, Program.slot?, h.block_eq]
  simp only [Program.isMerge, Program.value?, Program.definer?, hdef]
  cases p.definition? t with
  | none => rfl
  | some d =>
    -- A definition that was replaced merges nothing, before and afterwards.
    rcases h.stmt d with hd | ⟨-, -, u, v, m, _, k, i, _, _, _, _, ha, hy, hk, -⟩
    · simp [hd]
    · cases v with
      | merge => cases hk
      | _ => simp [ha, hy, Value.isMerge]

theorem key?_eq (h : Rewrites p q) (v : Value) : key? q v = key? p v := by
  have hv : ∀ x, q.isVolatile x = p.isVolatile x := by
    intro x
    cases x with
    | temp t => exact h.isMerge_eq t
    | global name => simp [Program.isVolatile, h.assigned]
    | _ => rfl
  cases v with
  | unary op x => simp [key?, hv]
  | binary op l r => simp [key?, hv]
  | _ => rfl

/-- A definition may be replaced by one that refers to a temp. -/
theorem modifyStmt (h : Rewrites p q) {f : IR.Stmt → IR.Stmt}
    (hf : s < q.stmts.size → Refers p s (f (q.stmt s))) : Rewrites p (q.modifyStmt s f) where
  blocks := h.blocks
  functions := h.functions
  assigned := h.assigned
  stmt s' := by
    rw [Program.stmt_modifyStmt]
    split
    · next hs =>
      obtain ⟨rfl, hlt⟩ := hs
      exact .inr (hf hlt)
    · exact h.stmt s'

end Rewrites

/-! ## Tables -/

namespace Available

variable {a : Available} {k : String} {t : TempId} {d : StmtId}

theorem done_empty : Available.Done p {} b xs := fun k prev h => by simp at h

theorem fresh_empty : Available.Fresh p {} xs := fun k prev h => by simp at h

theorem Done.insert (h : a.Done p b xs) (hd : p.Computes d t) (hdone : p.Done d b xs) :
    Available.Done p (a.insert k t) b xs := by
  intro k' prev hk
  rw [Std.TreeMap.getElem?_insert] at hk
  split at hk
  · cases hk
    exact ⟨d, hd, hdone⟩
  · exact h k' prev hk

theorem Fresh.insert (h : a.Fresh p xs) (hd : p.Computes d t) (hfresh : p.Fresh d xs) :
    Available.Fresh p (a.insert k t) xs := by
  intro k' prev hk
  rw [Std.TreeMap.getElem?_insert] at hk
  split at hk
  · cases hk
    exact ⟨d, hd, hfresh⟩
  · exact h k' prev hk

/-- What has been done at one point has been done at another. -/
theorem Done.imp {ys : List StmtId} (h : a.Done p b xs)
    (himp : ∀ d t, p.Computes d t → p.Done d b xs → p.Done d c ys) : a.Done p c ys := fun k prev hk =>
  have ⟨d, hd, hdone⟩ := h k prev hk
  ⟨d, hd, himp d prev hd hdone⟩

theorem Done.append (h : a.Done p b xs) : a.Done p b (xs ++ [s]) :=
  h.imp fun _ _ _ hd => hd.mono (List.subset_append_left ..)

theorem Fresh.append (h : a.Fresh p xs) (hs : (p.stmt s).live = true → (p.stmt s).clobbers = false) :
    a.Fresh p (xs ++ [s]) := fun k prev hk =>
  have ⟨d, hd, hfresh⟩ := h k prev hk
  ⟨d, hd, hfresh.append hs⟩

end Available

/-! ## The walk -/

/-- Behind a live statement its computation is available, or it refers to one that was. -/
theorem State.At.compute {st : State} (h : st.At p b xs) (hp : p.Structured)
    (hs : (p.block b).stmts = xs ++ s :: rest) (hl : (p.stmt s).live = true) :
    Rewrites p (compute s st).program ∧ (compute s st).lasting.Done p b (xs ++ [s]) ∧
    ((p.stmt s).clobbers = false → (compute s st).passing.Fresh p (xs ++ [s])) := by
  have hlasting : st.lasting.Done p b (xs ++ [s]) := h.lasting.append
  have hpassing : (p.stmt s).clobbers = false → st.passing.Fresh p (xs ++ [s]) := fun hc =>
    h.passing.append fun _ => hc
  unfold CommonValues.compute
  dsimp only
  split
  · next t v m ha =>
    split
    · exact ⟨h.rewrites, hlasting, hpassing⟩
    · next he =>
      split
      · exact ⟨h.rewrites, hlasting, hpassing⟩
      · next k isVolatile hk =>
        rw [h.rewrites.key?_eq] at hk
        obtain hstmt := h.rewrites.stmt_eq_of_key ha hk
        rw [hstmt] at ha
        split
        · next prev hprev =>
          refine ⟨h.rewrites.modifyStmt fun _ => ?_, hlasting, hpassing⟩
          obtain ⟨d, hd, hdone, hfresh⟩ : ∃ d, p.Computes d prev ∧ p.Done d b xs ∧
              (isVolatile = true → p.Fresh d xs) := by
            cases isVolatile with
            | true =>
              obtain ⟨d, hd, hfresh⟩ := h.passing k prev hprev
              exact ⟨d, hd, hfresh.done, fun _ => hfresh⟩
            | false =>
              obtain ⟨d, hd, hdone⟩ := h.lasting k prev hprev
              exact ⟨d, hd, hdone, nofun⟩
          have heffects : (p.stmt s).effects = [] := by
            rw [← hstmt]
            simpa using he
          exact ⟨by rw [hstmt], heffects.symm, t, v, m, prev, k, isVolatile, d, b, xs, rest, ha, rfl, hk, hd, hs,
            hdone, hfresh⟩
        · have hcomputes : p.Computes s t := by
            have hm : s ∈ (p.block b).stmts := hs ▸ List.mem_append_cons_self
            exact ⟨hl, by rw [(hp.home b s hm).2]; exact hm, v, m, ha⟩
          split
          · refine ⟨h.rewrites, hlasting, fun hc => (hpassing hc).insert hcomputes ⟨xs, [], rfl, nofun⟩⟩
          · refine ⟨h.rewrites, hlasting.insert hcomputes (.ran ?_), hpassing⟩
            exact List.mem_append_cons_self
  · exact ⟨h.rewrites, hlasting, hpassing⟩

/-- How a walk treats the chains from some blocks on. -/
def Walk.Keeps (p : Program) (walk : Walk) : Prop :=
  ∀ c q a, Rewrites p q → a.Done p c [] → Rewrites p (walk c (q, a)).1 ∧
    ∀ y, p.OnChain c y → (p.block y).next = none → (walk c (q, a)).2.Done p y (p.block y).stmts

@[simp] theorem nested_lasting (walk : Walk) (a : Action) (st : State) :
    (nested walk a st).lasting = st.lasting := by
  unfold nested
  dsimp only
  split <;> rfl

@[simp] theorem nested_passing (walk : Walk) (a : Action) (st : State) :
    (nested walk a st).passing = st.passing := by
  unfold nested
  dsimp only
  split <;> rfl

/-- The blocks that a statement owns are walked through with what has been done in front of it. -/
theorem nested_rewrites {walk : Walk} {st : State} (hw : walk.Keeps p) (hp : p.Structured)
    (hs : (p.block b).stmts = xs ++ s :: rest) (hst : Rewrites p st.program)
    (hlasting : st.lasting.Done p b (xs ++ [s])) :
    Rewrites p (nested walk (p.stmt s).action st).program := by
  have hm : s ∈ (p.block b).stmts := hs ▸ List.mem_append_cons_self
  have hinner : ∀ c, c ∈ (p.stmt s).action.blocks → st.lasting.Done p c [] := by
    intro c hc
    refine hlasting.imp fun d t hd hdone => .outer (hp.owned b s c hm hc) (hp.heads b s c hm hc)
      (by rw [(hp.home b s hm).2]; exact hs) ?_
    rw [(hp.home b s hm).2]
    rcases hdone.of_append with rfl | hdone
    · rw [hd.blocks_eq] at hc
      cases hc
    · exact hdone
  generalize ha : (p.stmt s).action = a at hinner
  unfold CommonValues.nested
  dsimp only
  split
  · next test cond body rounds =>
    have htest : test ∈ Action.blocks (.loop ⟨.tested false test cond, body, rounds⟩) := by
      simp [Action.blocks, Loop.blocks]
    obtain ⟨hq, hend⟩ := hw test _ _ hst (hinner test htest)
    refine (hw body _ _ hq ?_).1
    -- The body starts where the chain of the test ends.
    obtain ⟨y, hy, he⟩ := hp.toCoherent.exists_end test
    exact (hend y hy he).imp fun d t _ hdone => .tested hm ha hy he hdone
  · exact List.foldlRecOn (motive := Rewrites p) _ _ hst fun q hq c hc => (hw c q _ hq (hinner c hc)).1

/-- Walking through a statement. -/
theorem State.At.stmt {walk : Walk} {st : State} (h : st.At p b xs) (hw : walk.Keeps p)
    (hp : p.Structured) (hs : (p.block b).stmts = xs ++ s :: rest) :
    (stmt walk st s).At p b (xs ++ [s]) := by
  unfold CommonValues.stmt
  split
  · next hl =>
    rw [h.rewrites.live_eq] at hl
    obtain ⟨hrewrites, hlasting, hpassing⟩ := h.compute hp hs hl
    dsimp only
    rw [hrewrites.clobbers_eq]
    generalize CommonValues.compute s st = st1 at hrewrites hlasting hpassing ⊢
    have hnested : ∀ st2 : State, st2.program = st1.program → st2.lasting = st1.lasting →
        Rewrites p (nested walk (st1.program.stmt s).action st2).program := by
      intro st2 hprogram hlast
      rw [← hprogram] at hrewrites
      rw [← hlast] at hlasting
      rw [← hprogram]
      rcases hrewrites.stmt s with hx | ⟨-, -, _, _, _, _, _, _, _, _, _, _, -, hy, -⟩
      · rw [hx]
        exact nested_rewrites hw hp hs hrewrites hlasting
      · rw [hy]
        exact hrewrites
    split
    · exact ⟨hnested _ rfl rfl, by rw [nested_lasting]; exact hlasting, by
        rw [nested_passing]
        exact Available.fresh_empty⟩
    · next hc =>
      exact ⟨hnested _ rfl rfl, by rw [nested_lasting]; exact hlasting, by
        rw [nested_passing]
        exact hpassing (by simpa using hc)⟩
  · next hl =>
    rw [h.rewrites.live_eq] at hl
    exact ⟨h.rewrites, h.lasting.append, h.passing.append fun hl' => (hl hl').elim⟩

/-- Walking through the statements of a block. -/
theorem State.At.stmts {walk : Walk} {st : State} (hw : walk.Keeps p) (hp : p.Structured)
    (h : st.At p b xs) (hs : (p.block b).stmts = xs ++ rest) :
    (rest.foldl (CommonValues.stmt walk) st).At p b (p.block b).stmts := by
  induction rest generalizing xs st with
  | nil =>
    rw [hs, List.append_nil]
    exact h
  | cons s rest ih => exact ih (h.stmt hw hp hs) (by simpa using hs)

/-- Walking along a chain. -/
theorem chain_keeps (hp : p.Structured) (fuel : Nat) : Walk.Keeps p fun c => chain fuel (some c) := by
  induction fuel with
  | zero => exact fun c q a hq ha => ⟨hq, fun y hy _ => ha.imp fun _ _ _ hd => (hd.of_onChain hy).of_start⟩
  | succ fuel ih =>
    intro c q a hq ha
    have hstop : ∀ y, p.OnChain c y → (p.block y).next = none → a.Done p y (p.block y).stmts :=
      fun y hy _ => ha.imp fun _ _ _ hd => (hd.of_onChain hy).of_start
    dsimp only
    unfold chain
    rw [hq.block_eq]
    split
    · exact ⟨hq, hstop⟩
    · have hstart : State.At p c [] { program := q, lasting := a } := ⟨hq, ha, Available.fresh_empty⟩
      have h := hstart.stmts ih hp rfl
      dsimp only
      rw [h.rewrites.block_eq]
      cases hn : (p.block c).next with
      | none =>
        have hend : ∀ r, chain fuel none r = r := by
          intro r
          cases fuel <;> rfl
        rw [hend]
        refine ⟨h.rewrites, fun y hy he => ?_⟩
        obtain rfl := hy.end_unique (.head c) he hn
        exact h.lasting
      | some d =>
        have hd := ih d _ _ h.rewrites (h.lasting.imp fun _ _ _ hdone => .along hn hdone)
        refine ⟨hd.1, fun y hy he => hd.2 y ?_ he⟩
        rcases hy.cases_next with rfl | ⟨z, hz, hzy⟩
        · rw [hn] at he
          cases he
        · rw [hn] at hz
          cases hz
          exact hzy

/-- The pass only lets definitions refer to temps that have been computed before. -/
theorem run_rewrites (hp : p.Structured) : Rewrites p (run p) := by
  refine List.foldlRecOn (motive := Rewrites p) _ _ (.refl p) fun q hq f _ => ?_
  cases hf : q.firstBlock? f with
  | none => exact hq
  | some c => exact (chain_keeps hp _ c q {} hq Available.done_empty).1

/-- Whatever passes have run over the program of a script: if the pass lets a definition refer to a temp,
the one definition of that temp has run before on every run that gets there, in the same round of every
loop around it. If the computation is volatile, both stand in one block, and no live statement between
them may write. -/
theorem run_dominated {x : Script} {p₀ p : Program} (h : x.lower = .ok p₀) (forSize : Bool)
    (passes : List Pass) (hp : p = Pass.applyAll forSize passes p₀) {s : StmtId}
    (hs : (run p).stmt s ≠ p.stmt s) :
    ∃ t v placement prev k isVolatile d,
      (p.stmt s).action = .define t v placement ∧
      ((run p).stmt s).action = .define t (.operand (.temp prev)) placement ∧
      p.definition? prev = some d ∧
      (∀ b d', d' ∈ (p.block b).stmts → (p.stmt d').action.temp? = some prev → d' = d) ∧
      key? p v = some (k, isVolatile) ∧
      p.RunsBefore d s ∧ (isVolatile = true → p.Undisturbed d s) := by
  have hstructured : p.Structured := hp ▸ Pass.applyAll_structured h forSize passes
  rcases (run_rewrites hstructured).stmt s with heq |
    ⟨-, -, t, v, m, prev, k, isVolatile, d, b, xs, rest, ha, hy, hk, hd, hbs, hdone, hfresh⟩
  · exact (hs heq).elim
  · obtain ⟨w, n, hw⟩ := hd.define
    refine ⟨t, v, m, prev, k, isVolatile, d, ha, hy, hd.definition? hstructured.toCoherent, ?_, hk,
      hstructured.runsBefore hd.blocks_eq hbs hdone, fun hv => (hfresh hv).undisturbed hbs⟩
    intro b' d' hd' ht
    exact hstructured.unique b' _ d' d prev hd' hd.placed ht (by rw [hw]; rfl)

/-- A loop that multiplies two parameters in its test and again in its body. -/
def productLoop : String := "function h(a, b) \x7b while (a * b) k(a * b); \x7d"

/-- The product in the body is the one of the test in front of it, and control gets there. -/
theorem run_dominated_productLoop :
    ∃ x p, Script.parse "" productLoop = .ok x ∧ x.lower = .ok p ∧ (run p).stmt 2 ≠ p.stmt 2 ∧
      ((run p).stmt 2).action = .define ⟨3, 0⟩ (.operand (.temp ⟨2, 0⟩)) .undecided ∧
      p.definition? ⟨2, 0⟩ = some 1 ∧ p.RunsBefore 1 2 ∧ ∃ es rest, p.Runs 1 es 3 (2 :: rest) := by
  obtain ⟨x, p, hx, hlower, hp⟩ := Script.exists_lower productLoop (fun _ p =>
    decide ((run p).stmt 2 ≠ p.stmt 2 ∧
      ((run p).stmt 2).action = .define ⟨3, 0⟩ (.operand (.temp ⟨2, 0⟩)) .undecided ∧
      p.definition? ⟨2, 0⟩ = some 1 ∧ p.firstBlock? 1 = some 1 ∧ (p.block 1).stmts = [0] ∧
      (p.stmt 0).action = .loop ⟨.tested false 2 (.temp ⟨2, 0⟩), 3, .unknown⟩ ∧
      (p.block 2).stmts = [1] ∧ (p.stmt 1).action.endsBlock = false ∧ (p.block 2).next = none ∧
      (p.block 2).parent = some 0 ∧ (p.block 3).stmts = [2, 3])) (by decide +kernel)
  obtain ⟨hne, hrun, hdef, hfirst, hentry, hloop, htest, hpass, hend, hparent, hbody⟩ :=
    of_decide_eq_true hp
  obtain ⟨t, v, m, prev, k, isVolatile, d, -, hy, hd, -, -, hbefore, -⟩ :=
    run_dominated hlower false [] rfl hne
  obtain ⟨rfl, hval, rfl⟩ := Action.define.inj (hrun.symm.trans hy)
  cases hval
  obtain rfl := Option.some.inj (hdef.symm.trans hd)
  have h₁ := Program.Runs.start hfirst
  rw [hentry] at h₁
  have h₂ := h₁.jump (.start hloop)
  rw [show Loop.first ⟨.tested false 2 (.temp ⟨2, 0⟩), 3, .unknown⟩ = 2 from rfl, htest] at h₂
  have h₃ := (h₂.stmt hpass).fall (.turn hend hparent hloop (by decide) (.head 2))
  rw [show Loop.following ⟨.tested false 2 (.temp ⟨2, 0⟩), 3, .unknown⟩ 2 = 3 from rfl, hbody] at h₃
  exact ⟨x, p, hx, hlower, hne, hrun, hdef, hbefore, _, [3], h₃⟩

end CommonValues

end ScriptOptimizer
