import ScriptOptimizer.Lowering.Script
import ScriptOptimizer.Proofs.Program

/-!
# Steps of lowering

A successful step of lowering is taken apart into successful steps, and the basic steps are given as
changes of the state.
-/

namespace ScriptOptimizer

/-- All names of one set are in another. -/
def NameSet.Within (a b : NameSet) : Prop := ∀ name, a.contains name = true → b.contains name = true

theorem NameSet.within_insert (a : NameSet) (name : String) : a.Within (a.insert name) := fun _ h => by
  simp [Std.TreeSet.contains_insert, h]

end ScriptOptimizer

namespace ScriptOptimizer.IR.Program

/-- Adds a statement that stands nowhere. -/
def addStmt (p : Program) (x : Stmt) : Program := { p with stmts := p.stmts.push x }

/-- Places a statement at the end of a block. -/
def place (p : Program) (b : BlockId) (s : StmtId) : Program :=
  p.modifyBlock b fun x => { x with stmts := x.stmts ++ [s] }

/-- Adds a temp to a block. -/
def addSlot (p : Program) (b : BlockId) (s : StmtId) : Program :=
  p.modifyBlock b fun x => { x with slots := x.slots.push { definition := some s } }

def addBlock (p : Program) (func : FuncId) (parent : Option StmtId) : Program :=
  { p with
    blocks := p.blocks.push { func, parent }
    functions := p.functions.modify func fun f => { f with blocks := f.blocks ++ [p.blocks.size] } }

def addBlocks (p : Program) (func : FuncId) (parent : Option StmtId) : Nat → Program
  | 0 => p
  | n + 1 => (p.addBlocks func parent n).addBlock func parent

/-- Adds a copy that stands nowhere, and notes it with the definition of its merging temp. -/
def addCopy (p : Program) (d : StmtId) (merge : TempId) (copies : List StmtId) (x : Stmt) : Program :=
  (p.addStmt x).modifyStmt d fun y =>
    { y with action := .define merge (.merge (copies ++ [p.stmts.size])) .undecided }

/-- Continues a block in another. -/
def link (p : Program) (b next : BlockId) : Program :=
  (p.modifyBlock b fun x => { x with next := some next }).modifyBlock next fun x =>
    { x with prev := some b }

variable (p : Program)

/-- The statements behind an added one. -/
theorem stmt_addStmt (x : Stmt) (s : StmtId) :
    (p.addStmt x).stmt s = if s = p.stmts.size then x else p.stmt s := by
  simp only [stmt, addStmt, Array.getD_eq_getD_getElem?, Array.getElem?_push]
  split <;> simp

/-- The added statement itself. -/
@[simp] theorem stmt_addStmt_self (x : Stmt) : (p.addStmt x).stmt p.stmts.size = x := by
  simp [stmt_addStmt]

/-- The statements that were there stay as they are. -/
theorem stmt_addStmt_of_lt (x : Stmt) (s : StmtId) (hs : s < p.stmts.size) :
    (p.addStmt x).stmt s = p.stmt s := by
  simp [stmt_addStmt, Nat.ne_of_lt hs]

@[simp] theorem stmts_size_addStmt (x : Stmt) : (p.addStmt x).stmts.size = p.stmts.size + 1 := by
  simp [addStmt]

@[simp] theorem block_addStmt (x : Stmt) : (p.addStmt x).block = p.block := rfl

@[simp] theorem blocks_addStmt (x : Stmt) : (p.addStmt x).blocks = p.blocks := rfl

@[simp] theorem definition?_addStmt (x : Stmt) : (p.addStmt x).definition? = p.definition? := rfl

@[simp] theorem stmt_place (b : BlockId) (s : StmtId) : (p.place b s).stmt = p.stmt := rfl

@[simp] theorem stmts_place (b : BlockId) (s : StmtId) : (p.place b s).stmts = p.stmts := rfl

@[simp] theorem blocks_size_place (b : BlockId) (s : StmtId) :
    (p.place b s).blocks.size = p.blocks.size := by
  simp [place]

/-- Placing a statement adds it to its block. -/
theorem block_place (b c : BlockId) (s : StmtId) (hb : b < p.blocks.size) :
    (p.place b s).block c =
      if c = b then { p.block c with stmts := (p.block c).stmts ++ [s] } else p.block c := by
  simp [place, block_modifyBlock, hb]

/-- Placing a statement keeps everything else of the blocks. -/
theorem block_place_of_eq {α : Type} (g : Block → α) (b c : BlockId) (s : StmtId)
    (h : ∀ x stmts, g { x with stmts } = g x) : g ((p.place b s).block c) = g (p.block c) :=
  p.block_modifyBlock_of_eq g b c _ fun x => h x _

/-- Placing a statement changes what its block lists. -/
theorem place_eq (b : BlockId) (s : StmtId) :
    p.place b s = p.modifyBlock b fun x => { x with stmts := (p.block b).stmts ++ [s] } :=
  p.modifyBlock_congr rfl

@[simp] theorem definition?_place (b : BlockId) (s : StmtId) :
    (p.place b s).definition? = p.definition? :=
  p.definition?_modifyBlock b _ fun _ => rfl

@[simp] theorem stmt_addSlot (b : BlockId) (s : StmtId) : (p.addSlot b s).stmt = p.stmt := rfl

@[simp] theorem stmts_addSlot (b : BlockId) (s : StmtId) : (p.addSlot b s).stmts = p.stmts := rfl

@[simp] theorem blocks_size_addSlot (b : BlockId) (s : StmtId) :
    (p.addSlot b s).blocks.size = p.blocks.size := by
  simp [addSlot]

/-- It does not matter whether a definition is placed before it gets its slot. -/
theorem addSlot_place (b : BlockId) (s x : StmtId) :
    (p.place b x).addSlot b s = (p.addSlot b s).place b x := by
  simp only [place, addSlot, modifyBlock_modifyBlock]
  rfl

/-- A new slot keeps everything else of the blocks. -/
theorem block_addSlot_of_eq {α : Type} (g : Block → α) (b c : BlockId) (s : StmtId)
    (h : ∀ x slots, g { x with slots } = g x) : g ((p.addSlot b s).block c) = g (p.block c) :=
  p.block_modifyBlock_of_eq g b c _ fun x => h x _

/-- The temp of a new slot is defined by its statement. -/
theorem definition?_addSlot (b : BlockId) (s : StmtId) (t : TempId) (hb : b < p.blocks.size) :
    (p.addSlot b s).definition? t =
      if t = ⟨b, (p.block b).slots.size⟩ then some s else p.definition? t := by
  simp only [definition?_eq, addSlot, block_modifyBlock]
  obtain ⟨tb, ts⟩ := t
  by_cases h : tb = b
  · subst h
    simp only [hb, and_self, if_true, Array.getElem?_push]
    by_cases h' : ts = (p.block tb).slots.size
    · simp [h']
    · simp [h', TempId.mk.injEq]
  · simp [h, TempId.mk.injEq]

@[simp] theorem stmt_addBlock (f : FuncId) (q : Option StmtId) : (p.addBlock f q).stmt = p.stmt := rfl

@[simp] theorem stmts_addBlock (f : FuncId) (q : Option StmtId) :
    (p.addBlock f q).stmts = p.stmts := rfl

@[simp] theorem blocks_size_addBlock (f : FuncId) (q : Option StmtId) :
    (p.addBlock f q).blocks.size = p.blocks.size + 1 := by
  simp [addBlock]

/-- The blocks behind an added one. -/
theorem block_addBlock (f : FuncId) (q : Option StmtId) (b : BlockId) :
    (p.addBlock f q).block b =
      if b = p.blocks.size then { func := f, parent := q } else p.block b := by
  simp only [block, addBlock, Array.getD_eq_getD_getElem?, Array.getElem?_push]
  split <;> simp

/-- A new block lists nothing and stands for itself, as numbers out of range do. -/
theorem block_addBlock_of_eq {α : Type} (g : Block → α) (f : FuncId) (q : Option StmtId) (b : BlockId)
    (h : g { func := f, parent := q } = g default) : g ((p.addBlock f q).block b) = g (p.block b) := by
  rw [block_addBlock]
  split
  · next hb => rw [hb, p.block_of_ge _ (Nat.le_refl _), h]
  · rfl

/-- It does not matter whether an owner is placed before it gets its blocks. -/
theorem addBlock_place (b : BlockId) (s : StmtId) (f : FuncId) (q : Option StmtId)
    (hb : b < p.blocks.size) : (p.place b s).addBlock f q = (p.addBlock f q).place b s := by
  simp only [addBlock, place, modifyBlock, Program.mk.injEq, Array.size_modify, and_true]
  refine Array.ext_getElem? fun i => ?_
  simp only [Array.getElem?_modify, Array.getElem?_push, Array.size_modify]
  by_cases hi : i = p.blocks.size
  · simp [hi, Nat.ne_of_lt hb]
  · simp [hi]

/-- A new block has no temps yet. -/
@[simp] theorem definition?_addBlock (f : FuncId) (q : Option StmtId) :
    (p.addBlock f q).definition? = p.definition? := by
  funext t
  simp only [definition?_eq, block_addBlock]
  split
  · next h => simp [block_of_ge p t.block (Nat.le_of_eq h.symm)]; rfl
  · rfl

@[simp] theorem stmt_addBlocks (f : FuncId) (q : Option StmtId) (n : Nat) :
    (p.addBlocks f q n).stmt = p.stmt := by
  induction n with
  | zero => rfl
  | succ n ih => exact ih

@[simp] theorem stmts_addBlocks (f : FuncId) (q : Option StmtId) (n : Nat) :
    (p.addBlocks f q n).stmts = p.stmts := by
  induction n with
  | zero => rfl
  | succ n ih => exact ih

@[simp] theorem blocks_size_addBlocks (f : FuncId) (q : Option StmtId) (n : Nat) :
    (p.addBlocks f q n).blocks.size = p.blocks.size + n := by
  induction n with
  | zero => rfl
  | succ n ih => rw [addBlocks, blocks_size_addBlock, ih, Nat.add_assoc]

/-- The blocks that were there stay as they are. -/
theorem block_addBlocks_of_lt (f : FuncId) (q : Option StmtId) (n : Nat) (b : BlockId)
    (hb : b < p.blocks.size) : (p.addBlocks f q n).block b = p.block b := by
  induction n with
  | zero => rfl
  | succ n ih =>
    rw [addBlocks, block_addBlock, blocks_size_addBlocks,
      if_neg (Nat.ne_of_lt (Nat.lt_of_lt_of_le hb (Nat.le_add_right _ _))), ih]

/-- The added blocks are empty. -/
theorem block_addBlocks_of_ge (f : FuncId) (q : Option StmtId) (n : Nat) (b : BlockId)
    (hb : p.blocks.size ≤ b) (hn : b < p.blocks.size + n) :
    (p.addBlocks f q n).block b = { func := f, parent := q } := by
  induction n with
  | zero => exact absurd (Nat.lt_of_le_of_lt hb hn) (Nat.lt_irrefl _)
  | succ n ih =>
    rw [addBlocks, block_addBlock, blocks_size_addBlocks]
    split
    · rfl
    · next hne => exact ih (Nat.lt_of_le_of_ne (Nat.le_of_lt_succ hn) hne)

@[simp] theorem definition?_addBlocks (f : FuncId) (q : Option StmtId) (n : Nat) :
    (p.addBlocks f q n).definition? = p.definition? := by
  induction n with
  | zero => rfl
  | succ n ih => rw [addBlocks, definition?_addBlock, ih]

/-- It does not matter whether an owner is placed before it gets its blocks. -/
theorem addBlocks_place (b : BlockId) (s : StmtId) (f : FuncId) (q : Option StmtId) (n : Nat)
    (hb : b < p.blocks.size) : (p.place b s).addBlocks f q n = (p.addBlocks f q n).place b s := by
  induction n with
  | zero => rfl
  | succ n ih =>
    rw [addBlocks, ih, addBlock_place _ _ _ _ _ (by
      rw [blocks_size_addBlocks]
      exact Nat.lt_of_lt_of_le hb (Nat.le_add_right _ _)), addBlocks]

@[simp] theorem block_addCopy (d : StmtId) (m : TempId) (cs : List StmtId) (x : Stmt) :
    (p.addCopy d m cs x).block = p.block := rfl

@[simp] theorem blocks_addCopy (d : StmtId) (m : TempId) (cs : List StmtId) (x : Stmt) :
    (p.addCopy d m cs x).blocks = p.blocks := rfl

@[simp] theorem stmts_size_addCopy (d : StmtId) (m : TempId) (cs : List StmtId) (x : Stmt) :
    (p.addCopy d m cs x).stmts.size = p.stmts.size + 1 := by
  simp [addCopy]

@[simp] theorem definition?_addCopy (d : StmtId) (m : TempId) (cs : List StmtId) (x : Stmt) :
    (p.addCopy d m cs x).definition? = p.definition? := rfl

/-- The statements behind an added copy. -/
theorem stmt_addCopy (d : StmtId) (m : TempId) (cs : List StmtId) (x : Stmt) (s : StmtId)
    (hd : d < p.stmts.size) :
    (p.addCopy d m cs x).stmt s =
      if s = p.stmts.size then x
      else if s = d then
        { p.stmt s with action := .define m (.merge (cs ++ [p.stmts.size])) .undecided }
      else p.stmt s := by
  rw [addCopy, stmt_modifyStmt, stmts_size_addStmt, stmt_addStmt]
  by_cases hs : s = p.stmts.size
  · simp [hs, Nat.ne_of_gt hd]
  · by_cases hsd : s = d
    · simp [hsd, Nat.lt_succ_of_lt hd, Nat.ne_of_lt hd]
    · simp [hs, hsd]

@[simp] theorem stmt_link (b c : BlockId) : (p.link b c).stmt = p.stmt := rfl

@[simp] theorem stmts_link (b c : BlockId) : (p.link b c).stmts = p.stmts := rfl

@[simp] theorem blocks_size_link (b c : BlockId) : (p.link b c).blocks.size = p.blocks.size := by
  simp [link]

/-- Linking keeps everything but the two numbers of the link. -/
theorem block_link_of_eq {α : Type} (g : Block → α) (b c d : BlockId)
    (h : ∀ x n, g { x with next := n } = g x) (h' : ∀ x n, g { x with prev := n } = g x) :
    g ((p.link b c).block d) = g (p.block d) := by
  rw [link, block_modifyBlock_of_eq _ g _ _ _ fun x => h' x _,
    block_modifyBlock_of_eq _ g _ _ _ fun x => h x _]

@[simp] theorem definition?_link (b c : BlockId) : (p.link b c).definition? = p.definition? := by
  unfold link
  rw [definition?_modifyBlock _ c _ (by intro; rfl), definition?_modifyBlock _ b _ (by intro; rfl)]

/-- The block that a linked block continues in. -/
theorem next_link (b c d : BlockId) (hb : b < p.blocks.size) :
    ((p.link b c).block d).next = if d = b then some c else (p.block d).next := by
  unfold link
  rw [block_modifyBlock_of_eq _ (·.next) c d _ (by intro; rfl), block_modifyBlock]
  split
  · next h => simp [h.1]
  · next h =>
    have hd : d ≠ b := fun hd => h ⟨hd, hb⟩
    simp [hd]

/-- The block that continues in a linked block. -/
theorem prev_link (b c d : BlockId) (hc : c < p.blocks.size) :
    ((p.link b c).block d).prev = if d = c then some b else (p.block d).prev := by
  rw [link, block_modifyBlock]
  split
  · next h => simp [h.1]
  · next h =>
    have hd : d ≠ c := fun hd => h ⟨hd, by simpa using hc⟩
    simp only [hd, if_false]
    exact p.block_modifyBlock_of_eq (·.prev) b d _ (by intro; rfl)

end ScriptOptimizer.IR.Program

namespace ScriptOptimizer.Lowering

open IR

variable {α β : Type} {names : Names} {s s' : State}

/-! ## Taking steps apart -/

/-- A sequence of two steps succeeds when both do. -/
theorem bind_ok {m : Lower α} {f : α → Lower β} {r : β × State} (h : (m >>= f) names s = .ok r) :
    ∃ a s1, m names s = .ok (a, s1) ∧ f a names s1 = .ok r := by
  change (m names s).bind (fun x => f x.1 names x.2) = .ok r at h
  cases hm : m names s with
  | error e =>
    rw [hm] at h
    cases h
  | ok x =>
    rw [hm] at h
    exact ⟨x.1, x.2, rfl, h⟩

/-- A step that only gives a value keeps the state. -/
theorem pure_ok {a b : α} (h : (pure a : Lower α) names s = .ok (b, s')) : b = a ∧ s' = s := by
  cases h
  exact ⟨rfl, rfl⟩

/-- A failure does not succeed. -/
theorem fail_ok {fault : Fault} {pos : Position} {r : α × State}
    (h : (fail fault pos : Lower α) names s = .ok r) : False := by
  cases h

/-- A refusal does not succeed. -/
theorem refuse_ok {what : Unsupported} {pos : Position} {r : α × State}
    (h : (refuse what pos : Lower α) names s = .ok r) : False := by
  cases h

/-- A broken invariant does not succeed. -/
theorem broken_ok {what : Broken} {r : α × State}
    (h : (broken what : Lower α) names s = .ok r) : False := by
  cases h

/-- Reading the state keeps it. -/
theorem get_ok {a : State} (h : (get : Lower State) names s = .ok (a, s')) : a = s ∧ s' = s := by
  cases h
  exact ⟨rfl, rfl⟩

/-- Reading the names keeps the state. -/
theorem read_ok {a : Names} (h : (read : Lower Names) names s = .ok (a, s')) : a = names ∧ s' = s := by
  cases h
  exact ⟨rfl, rfl⟩

/-- Reading the program keeps the state. -/
theorem program_ok {p : Program} (h : program names s = .ok (p, s')) : p = s.program ∧ s' = s := by
  cases h
  exact ⟨rfl, rfl⟩

/-- Dropping the value of a step keeps its state. -/
theorem discard_ok {m : Lower α} (h : discard m names s = .ok ((), s')) :
    ∃ a, m names s = .ok (a, s') := by
  change (m names s).bind (fun x => .ok ((), x.2)) = .ok ((), s') at h
  cases hm : m names s with
  | error e =>
    rw [hm] at h
    cases h
  | ok x =>
    rw [hm] at h
    cases h
    exact ⟨x.1, rfl⟩

/-- What every step over a list keeps holds behind all of them. -/
theorem forM_ok {f : α → Lower PUnit} {xs : List α} {P : State → Prop} (hs : P s)
    (hf : ∀ x, x ∈ xs → ∀ t t', P t → f x names t = .ok ((), t') → P t')
    (h : xs.forM f names s = .ok ((), s')) : P s' := by
  induction xs generalizing s with
  | nil =>
    cases h
    exact hs
  | cons x xs ih =>
    obtain ⟨_, s1, e1, h1⟩ := bind_ok (m := f x) (f := fun _ => xs.forM f) h
    exact ih (hf x List.mem_cons_self s s1 hs e1) (fun y hy => hf y (List.mem_cons_of_mem x hy)) h1

/-- What every step over a list keeps, together with the values given so far, holds behind all of
them. -/
theorem mapM_ok {f : α → Lower β} {xs : List α} {ys : List β} {P : List α → List β → State → Prop}
    (hs : P [] [] s)
    (hf : ∀ done ds x t y t', x ∈ xs → P done ds t → f x names t = .ok (y, t') →
      P (done ++ [x]) (ds ++ [y]) t')
    (h : xs.mapM f names s = .ok (ys, s')) : P xs ys s' := by
  suffices ∀ done ds t, P done ds t → ∀ rest ys, (∀ x, x ∈ rest → x ∈ xs) →
      rest.mapM f names t = .ok (ys, s') → P (done ++ rest) (ds ++ ys) s' from
    this [] [] s hs xs ys (fun _ hx => hx) h
  intro done ds t ht rest
  induction rest generalizing done ds t with
  | nil =>
    intro ys _ h
    rw [List.mapM_nil] at h
    obtain ⟨rfl, rfl⟩ := pure_ok h
    simpa using ht
  | cons x rest ih =>
    intro ys hx h
    rw [List.mapM_cons] at h
    obtain ⟨y, t1, e1, h1⟩ := bind_ok h
    obtain ⟨zs, t2, e2, h2⟩ := bind_ok h1
    obtain ⟨rfl, rfl⟩ := pure_ok h2
    have h3 := hf done ds x t y t1 (hx x List.mem_cons_self) ht e1
    have h4 := ih (done ++ [x]) (ds ++ [y]) t1 h3 zs (fun z hz => hx z (List.mem_cons_of_mem x hz)) e2
    simpa using h4

/-- Behind a step that succeeds its continuation runs. -/
theorem bind_run {m : Lower α} {f : α → Lower β} {a : α} {t : State} (h : m names s = .ok (a, t)) :
    (m >>= f) names s = f a names t := by
  change (m names s).bind _ = _
  rw [h]
  rfl

/-- Two steps one after the other agree with two others if the first ones agree and the second ones do
behind them. -/
theorem bind_eq_bind {m m' : Lower α} {f f' : α → Lower β} (h : m' names s = m names s)
    (hf : ∀ a t, m names s = .ok (a, t) → f' a names t = f a names t) :
    (m' >>= f') names s = (m >>= f) names s := by
  change (m' names s).bind (fun x => f' x.1 names x.2) = (m names s).bind fun x => f x.1 names x.2
  rw [h]
  cases hm : m names s with
  | error e => rfl
  | ok x => exact hf x.1 x.2 hm

/-- Two steps side by side from one state: they do the same if `A` holds, and `Q` holds of the state behind
the first one and of what it gives. -/
structure Alike (A : Prop) (names : Names) (s : State) (m m' : Lower α) (Q : State → α → Prop) : Prop where
  same : A → m' names s = m names s
  gives : ∀ {a t}, m names s = .ok (a, t) → Q t a

namespace Alike

variable {A : Prop} {m m' : Lower α} {f f' : α → Lower β} {Q Q' : State → α → Prop} {R : State → β → Prop}

/-- A step beside itself. -/
theorem of_gives (h : ∀ {a t}, m names s = .ok (a, t) → Q t a) : Alike A names s m m Q := ⟨fun _ => rfl, h⟩

/-- A step beside itself that cannot succeed. -/
theorem of_fails (h : ∀ {r}, m names s = .ok r → False) : Alike A names s m m Q := of_gives fun e => (h e).elim

theorem imp (h : Alike A names s m m' Q) (k : ∀ {t a}, Q t a → Q' t a) : Alike A names s m m' Q' :=
  ⟨h.same, fun e => k (h.gives e)⟩

theorem bind (h : Alike A names s m m' Q)
    (k : ∀ a t, m names s = .ok (a, t) → Q t a → Alike A names t (f a) (f' a) R) :
    Alike A names s (m >>= f) (m' >>= f') R where
  same hA := bind_eq_bind (h.same hA) fun a t e => (k a t e (h.gives e)).same hA
  gives e := by
    obtain ⟨a, t, e1, e2⟩ := bind_ok e
    exact (k a t e1 (h.gives e1)).gives e2

/-- Steps that are the same where `A` holds, with what follows them. -/
theorem next (h : A → m' names s = m names s) (k : ∀ a t, m names s = .ok (a, t) → Alike A names t (f a) (f' a) R) :
    Alike A names s (m >>= f) (m' >>= f') R :=
  bind (Q := fun _ _ => True) ⟨h, fun _ => trivial⟩ fun a t e _ => k a t e

/-- A step that both have in common. -/
theorem step (k : ∀ a t, m names s = .ok (a, t) → Alike A names t (f a) (f' a) R) :
    Alike A names s (m >>= f) (m >>= f') R :=
  next (fun _ => rfl) k

/-- A step that both have in common and that only reads the state. -/
theorem read (hm : ∀ {a t}, m names s = .ok (a, t) → t = s)
    (k : ∀ a, m names s = .ok (a, s) → Alike A names s (f a) (f' a) R) :
    Alike A names s (m >>= f) (m >>= f') R :=
  step fun a t e => by
    obtain rfl := hm e
    exact k a e

/-- Steps over a list, each of which keeps something. -/
theorem forM {f f' : α → Lower PUnit} {xs : List α} {P : State → Prop} (hs : P s)
    (h : ∀ x, x ∈ xs → ∀ t, P t → Alike A names t (f x) (f' x) fun t _ => P t) :
    Alike A names s (xs.forM f) (xs.forM f') fun t _ => P t := by
  induction xs generalizing s with
  | nil => exact of_gives fun e => (pure_ok e).2 ▸ hs
  | cons x xs ih =>
    rw [List.forM, List.forM]
    exact bind (h x List.mem_cons_self s hs)
      fun _ t _ ht => ih ht fun y hy => h y (List.mem_cons_of_mem x hy)

end Alike

/-! ## The basic steps -/

/-- Appending places a statement. -/
theorem append_apply (b : BlockId) (x : StmtId) :
    append b x names s = .ok ((), { s with program := s.program.place b x }) := rfl

/-- A new block has the next number. -/
theorem newBlock_apply (func : FuncId) (parent : Option StmtId) :
    newBlock func parent names s =
      .ok (s.program.blocks.size, { s with program := s.program.addBlock func parent }) := rfl

/-- Emission adds a statement and places it at the cursor. -/
theorem emit_apply (c : Site) (action : Action) (pos : Position) (effects : List Effect) :
    emit c action pos effects names s =
      .ok (s.program.stmts.size, { s with
        program := (s.program.addStmt
          { action, block := s.block, parent := c.parent, pos, effects }).place s.block
            s.program.stmts.size }) := rfl

/-- Defining a temp emits its definition and adds its slot. -/
theorem temp_apply (c : Site) (v : Value) (pos : Position) :
    temp c v pos names s =
      .ok (.temp ⟨s.block, (s.program.block s.block).slots.size⟩, { s with
        program := ((s.program.addStmt
          { action := .define ⟨s.block, (s.program.block s.block).slots.size⟩ v .undecided,
            block := s.block, parent := c.parent, pos, effects := v.effects }).place s.block
              s.program.stmts.size).addSlot s.block s.program.stmts.size }) := rfl

/-- A merging temp has a slot, and a definition that stands nowhere. -/
theorem newMerge_apply (c : Site) (b : BlockId) (pos : Position) :
    newMerge c b pos names s =
      .ok ((⟨b, (s.program.block b).slots.size⟩, s.program.stmts.size), { s with
        program := (s.program.addStmt
          { action := .define ⟨b, (s.program.block b).slots.size⟩ (.merge []) .undecided,
            block := b, parent := c.parent, pos }).addSlot b s.program.stmts.size }) := rfl

/-- Continuing a block links it with a new one at the cursor. -/
theorem continueFrom_apply (c : Site) (b : BlockId) :
    continueFrom c b names s =
      .ok ((), { s with
        program := (s.program.addBlock c.func (s.program.block b).parent).link b
          s.program.blocks.size
        block := s.program.blocks.size }) := rfl

/-- A step within a block leaves the cursor where it was. -/
theorem within_ok {b : BlockId} {step : Lower α} {r : α × BlockId × Bool}
    (h : within b step names s = .ok (r, s')) :
    ∃ a t, step names { s with block := b, terminated := false } = .ok (a, t) ∧
      r = (a, t.block, t.terminated) ∧
      s' = { t with block := s.block, terminated := s.terminated } := by
  obtain ⟨outer, s1, e1, h1⟩ := bind_ok h
  obtain ⟨rfl, rfl⟩ := get_ok e1
  obtain ⟨_, s2, e2, h2⟩ := bind_ok h1
  cases e2
  obtain ⟨a, t, e3, h3⟩ := bind_ok h2
  obtain ⟨inner, s4, e4, h4⟩ := bind_ok h3
  obtain ⟨rfl, rfl⟩ := get_ok e4
  obtain ⟨_, s5, e5, h5⟩ := bind_ok h4
  cases e5
  cases h5
  exact ⟨a, _, e3, rfl, rfl⟩

/-- Steps at the start of a block are the same if they are there. -/
theorem within_same {b : BlockId} {m m' : Lower α}
    (h : m' names { s with block := b, terminated := false } = m names { s with block := b, terminated := false }) :
    within b m' names s = within b m names s := by
  refine bind_eq_bind rfl fun st t e => ?_
  obtain ⟨rfl, rfl⟩ := get_ok e
  refine bind_eq_bind rfl fun _ t e => ?_
  cases e
  exact bind_eq_bind h fun _ _ _ => rfl

/-- The list with an item in front of another that is its last. -/
theorem insertInFront_append [DecidableEq α] {a x : α} {xs : List α} (ha : a ∉ xs) :
    insertInFront a x (xs ++ [a]) = some (xs ++ [x, a]) := by
  induction xs with
  | nil => simp [insertInFront]
  | cons y ys ih =>
    rw [List.mem_cons, not_or] at ha
    simp [insertInFront, Ne.symm ha.1, ih ha.2]

/-- Placing a statement in front of the last one of a block. -/
theorem insertBefore_ok {a x : StmtId} {xs : List StmtId}
    (hxs : (s.program.block (s.program.stmt a).block).stmts = xs ++ [a]) (ha : a ∉ xs)
    (h : insertBefore a x names s = .ok ((), s')) :
    s' = { s with
      program := s.program.modifyBlock (s.program.stmt a).block fun y =>
        { y with stmts := xs ++ [x, a] } } := by
  obtain ⟨p, s1, e1, h1⟩ := bind_ok h
  obtain ⟨rfl, rfl⟩ := program_ok e1
  dsimp only at h1
  rw [hxs, insertInFront_append ha] at h1
  cases h1
  rfl

/-- A temp that merges copies. -/
theorem exists_of_value?_merge {p : Program} {t : TempId} {cs : List StmtId}
    (h : p.value? t = some (.merge cs)) :
    ∃ d u m, p.definition? t = some d ∧ (p.stmt d).action = .define u (.merge cs) m := by
  unfold Program.value? Program.definer? at h
  cases hd : p.definition? t with
  | none =>
    rw [hd] at h
    cases h
  | some d =>
    rw [hd] at h
    cases ha : (p.stmt d).action with
    | define u v m =>
      simp only [Option.map_some, ha, Option.some.injEq] at h
      exact ⟨d, u, m, rfl, by rw [ha, h]⟩
    | _ => simp [ha] at h

/-- Copying into a merging temp adds a statement that stands nowhere, and notes it with the temp. -/
theorem copyInto_ok {merge : TempId} {v : Option Operand} {b : BlockId} {q : Option StmtId}
    {pos : Position} {x : StmtId} (h : copyInto merge v b q pos names s = .ok (x, s')) :
    x = s.program.stmts.size ∧ ∃ d u m cs tracking, s.program.definition? merge = some d ∧
      (s.program.stmt d).action = .define u (.merge cs) m ∧
      s' = { s with
        tracking
        program := s.program.addCopy d merge cs
          { action := .copy merge v, block := b, parent := q, pos } } := by
  obtain ⟨_, s1, e1, h1⟩ := bind_ok h
  cases e1
  obtain ⟨p, s2, e2, h2⟩ := bind_ok h1
  obtain ⟨rfl, rfl⟩ := program_ok e2
  dsimp only at h2
  cases hv : s.program.value? merge with
  | none =>
    rw [hv] at h2
    cases hd : s.program.definition? merge <;> rw [hd] at h2 <;> exact (broken_ok h2).elim
  | some w =>
    rw [hv] at h2
    cases w with
    | merge cs =>
      obtain ⟨d, u, m, hd, ha⟩ := exists_of_value?_merge hv
      rw [hd] at h2
      cases h2
      exact ⟨rfl, d, u, m, cs, _, hd, ha, rfl⟩
    | _ => cases hd : s.program.definition? merge <;> rw [hd] at h2 <;> exact (broken_ok h2).elim

end ScriptOptimizer.Lowering
