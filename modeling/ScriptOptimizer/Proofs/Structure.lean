import Mathlib.Logic.ExistsUnique
import ScriptOptimizer.Proofs.Program

/-!
# The structure of programs

What the numbers of a program that refer to each other have to satisfy: each temp has one definition,
blocks form chains, and every statement knows its block and the branch or loop around it.

`Coherent` is the form of these rules that every step of the optimizer keeps, `Reshapes` what such a
step may change, and `WellFormed` what follows for a reader of the program.
-/

namespace ScriptOptimizer.IR

namespace Action

/-- Whether control does not pass an action to the next statement of the block. -/
def endsBlock : Action → Bool
  | branch .. | loop _ | returnValue _ | throwValue _ | breakLoop _ | continueLoop _ => true
  | _ => false

def isLoop : Action → Bool
  | loop _ => true
  | _ => false

theorem exists_of_isLoop {a : Action} (h : a.isLoop = true) : ∃ l, a = .loop l := by
  cases a with
  | loop l => exact ⟨l, rfl⟩
  | _ => cases h

/-- An action that control passes owns no blocks. -/
theorem blocks_of_not_endsBlock {a : Action} (h : a.endsBlock = false) : a.blocks = [] := by
  cases a with
  | branch | loop => cases h
  | _ => rfl

/-- The loop that an action leaves or continues. -/
def jump? : Action → Option StmtId
  | breakLoop l | continueLoop l => some l
  | _ => none

/-- The merging temp that a loop over keys or values stores them in. -/
def each? : Action → Option TempId
  | loop ⟨.iterated _ (.merge t) _, _, _⟩ => some t
  | _ => none

/-- The copies that an action merges. -/
def copies : Action → List StmtId
  | define _ (.merge cs) _ => cs
  | _ => []

end Action

namespace Program

variable {p : Program}

/-- A block of the chain that starts with a given one. -/
inductive OnChain (p : Program) : BlockId → BlockId → Prop where
  | head (b : BlockId) : OnChain p b b
  | next {b c d : BlockId} (hc : OnChain p b c) (hd : (p.block c).next = some d) : OnChain p b d

/-- The innermost loop around what a statement owns. -/
inductive Innermost (p : Program) : Option StmtId → StmtId → Prop where
  | loop {q : StmtId} (hq : (p.stmt q).action.isLoop = true) : Innermost p (some q) q
  | outward {q l : StmtId} (hq : (p.stmt q).action.isLoop = false)
      (hl : Innermost p (p.stmt q).parent l) : Innermost p (some q) l

/-- A definition is found under its temp, or it was dropped and no later step can make it live. -/
def Tied (p : Program) (s : StmtId) (t : TempId) : Prop :=
  p.definition? t = some s ∨ ((p.stmt s).live = false ∧ (p.stmt s).effects = [])

/-- The rules that every step of the optimizer keeps. -/
structure Coherent (p : Program) : Prop where
  home : ∀ b s, s ∈ (p.block b).stmts → s < p.stmts.size ∧ (p.stmt s).block = b
  parent : ∀ b s, s ∈ (p.block b).stmts → (p.stmt s).parent = (p.block b).parent
  nodup : ∀ b, (p.block b).stmts.Nodup
  unique : ∀ b1 b2 s1 s2 t, s1 ∈ (p.block b1).stmts → s2 ∈ (p.block b2).stmts →
    (p.stmt s1).action.temp? = some t → (p.stmt s2).action.temp? = some t → s1 = s2
  tied : ∀ b s t, s ∈ (p.block b).stmts → (p.stmt s).action.temp? = some t → p.Tied s t
  definition : ∀ t s, p.definition? t = some s → (p.stmt s).action.temp? = some t
  owner : ∀ s q, (p.stmt s).parent = some q → (p.stmt q).action.temp? = none
  copies : ∀ d c, c ∈ (p.stmt d).action.copies → (p.stmt c).action.temp? = none
  next : ∀ b c, (p.block b).next = some c →
    b < c ∧ (p.block c).prev = some b ∧ (p.block c).parent = (p.block b).parent
  prev : ∀ b c, (p.block c).prev = some b → (p.block b).next = some c
  owned : ∀ b s h, s ∈ (p.block b).stmts → h ∈ (p.stmt s).action.blocks →
    (p.block h).parent = some s
  jump : ∀ b s l, s ∈ (p.block b).stmts → (p.stmt s).action.jump? = some l →
    p.Innermost (p.stmt s).parent l

/-- Statements that control does not pass stand at the ends of blocks. -/
def EndsLast (p : Program) : Prop :=
  ∀ b s, s ∈ (p.block b).stmts → (p.stmt s).action.endsBlock = true →
    (p.block b).stmts.getLast? = some s

/-- Statements that own blocks stand at the ends of blocks. -/
def OwnersLast (p : Program) : Prop :=
  ∀ b s, s ∈ (p.block b).stmts → (p.stmt s).action.blocks ≠ [] → (p.block b).stmts.getLast? = some s

/-- What a part of a step of the optimizer may change. -/
structure Alters (p q : Program) : Prop where
  blocks_size : q.blocks.size = p.blocks.size
  stmts_size : q.stmts.size = p.stmts.size
  functions : q.functions = p.functions
  globals : q.globals = p.globals
  reserved : q.reserved = p.reserved
  func : ∀ b, (q.block b).func = (p.block b).func
  next : ∀ b, (q.block b).next = (p.block b).next
  prev : ∀ b, (q.block b).prev = (p.block b).prev
  owner : ∀ b, (q.block b).parent = (p.block b).parent
  dead : ∀ b, (p.block b).dead = true → (q.block b).dead = true
  home : ∀ s, (q.stmt s).block = (p.stmt s).block
  parent : ∀ s, (q.stmt s).parent = (p.stmt s).parent
  blocks : ∀ s, (q.stmt s).action.blocks = (p.stmt s).action.blocks
  endsBlock : ∀ s, (q.stmt s).action.endsBlock = (p.stmt s).action.endsBlock
  isLoop : ∀ s, (q.stmt s).action.isLoop = (p.stmt s).action.isLoop
  jump : ∀ s, (q.stmt s).action.jump? = (p.stmt s).action.jump?
  temp : ∀ s t, (q.stmt s).action.temp? = some t → (p.stmt s).action.temp? = some t
  copies : ∀ s, (q.stmt s).action.copies ⊆ (p.stmt s).action.copies
  stmts : ∀ b, (q.block b).stmts ⊆ (p.block b).stmts
  nodup : ∀ b, (p.block b).stmts.Nodup → (q.block b).stmts.Nodup
  last : ∀ b s, s ∈ (q.block b).stmts → (p.stmt s).action.endsBlock = true →
    (p.block b).stmts.getLast? = some s → (q.block b).stmts.getLast? = some s
  definition : ∀ t s, q.definition? t = some s →
    p.definition? t = some s ∧ ((p.stmt s).action.temp? = some t → (q.stmt s).action.temp? = some t)

/-- What a step of the optimizer may change. -/
structure Reshapes (p q : Program) : Prop extends Alters p q where
  tied : ∀ b s t, s ∈ (q.block b).stmts → (q.stmt s).action.temp? = some t → p.Tied s t → q.Tied s t

/-- The rules of a program as a reader sees them. -/
structure WellFormed (p : Program) : Prop where
  /-- A statement stands in its block once. -/
  once : ∀ b, (p.block b).stmts.Nodup
  /-- A temp has at most one definition over all blocks. -/
  unique : ∀ b1 b2 s1 s2 t, s1 ∈ (p.block b1).stmts → s2 ∈ (p.block b2).stmts →
    (p.stmt s1).action.temp? = some t → (p.stmt s2).action.temp? = some t → s1 = s2 ∧ b1 = b2
  /-- A definition that can run is found under its temp. -/
  defined : ∀ b s t, s ∈ (p.block b).stmts → (p.stmt s).action.temp? = some t →
    (p.stmt s).live = true → (p.block b).dead = false → p.definition? t = some s
  /-- Continuing a block and being continued by it are inverse. -/
  linked : ∀ b c, (p.block b).next = some c ↔ (p.block c).prev = some b
  /-- Every block belongs to exactly one chain. -/
  chain : ∀ b, ∃! h, (p.block h).prev = none ∧ p.OnChain h b
  /-- A statement knows the block that holds it. -/
  home : ∀ b s, s ∈ (p.block b).stmts → (p.stmt s).block = b
  /-- A statement has the parent of its block. -/
  parent : ∀ b s, s ∈ (p.block b).stmts → (p.stmt s).parent = (p.block b).parent
  /-- The blocks of a chain that a statement owns have it as their parent. -/
  owned : ∀ b s h c, s ∈ (p.block b).stmts → h ∈ (p.stmt s).action.blocks → p.OnChain h c →
    (p.block c).parent = some s
  /-- A jump belongs to the innermost loop around it. -/
  jump : ∀ b s l, s ∈ (p.block b).stmts → (p.stmt s).action.jump? = some l →
    p.Innermost (p.stmt s).parent l

/-! ## Chains -/

private theorem OnChain.head_eq {h b : BlockId} (hb : p.OnChain h b) (hp : (p.block b).prev = none)
    (hl : ∀ b c, (p.block b).next = some c → (p.block c).prev = some b) : h = b := by
  cases hb with
  | head => rfl
  | next _ hc =>
    rw [hl _ _ hc] at hp
    cases hp

private theorem OnChain.unique {h1 h2 b : BlockId}
    (hl : ∀ b c, (p.block b).next = some c → (p.block c).prev = some b) (hh1 : (p.block h1).prev = none)
    (hh2 : (p.block h2).prev = none) (hb1 : p.OnChain h1 b) (hb2 : p.OnChain h2 b) : h1 = h2 := by
  induction hb1 generalizing h2 with
  | head => exact (hb2.head_eq hh1 hl).symm
  | next _ hc ih =>
    cases hb2 with
    | head => rw [hl _ _ hc] at hh2; cases hh2
    | next hb2 hc' =>
      have he := (hl _ _ hc).symm.trans (hl _ _ hc')
      cases he
      exact ih hh2 hb2

/-- A block behind the first of a chain is continued from another one. -/
theorem Coherent.exists_head (hp : p.Coherent) (b : BlockId) : ∃ h, (p.block h).prev = none ∧ p.OnChain h b := by
  induction b using Nat.strongRecOn with
  | _ b ih =>
    cases hb : (p.block b).prev with
    | none => exact ⟨b, hb, .head b⟩
    | some a =>
      have hn := hp.prev a b hb
      obtain ⟨h, hh, hc⟩ := ih a (hp.next a b hn).1
      exact ⟨h, hh, hc.next hn⟩

/-- The blocks of a chain have the same parent. -/
theorem Coherent.parent_of_onChain (hp : p.Coherent) {h c : BlockId} (hc : p.OnChain h c) :
    (p.block c).parent = (p.block h).parent := by
  induction hc with
  | head => rfl
  | next _ hn ih => rw [(hp.next _ _ hn).2.2, ih]

/-- Coherent programs are well formed. -/
theorem Coherent.wellFormed (hp : p.Coherent) : p.WellFormed where
  once := hp.nodup
  unique b1 b2 s1 s2 t h1 h2 ht1 ht2 := by
    have hs := hp.unique b1 b2 s1 s2 t h1 h2 ht1 ht2
    subst hs
    exact ⟨rfl, ((hp.home b1 s1 h1).2).symm.trans (hp.home b2 s1 h2).2⟩
  defined b s t hs ht hl _ := by
    rcases hp.tied b s t hs ht with h | ⟨hd, _⟩
    · exact h
    · rw [hl] at hd; cases hd
  linked b c := ⟨fun h => (hp.next b c h).2.1, hp.prev b c⟩
  chain b := by
    obtain ⟨h, hh, hb⟩ := hp.exists_head b
    refine ⟨h, ⟨hh, hb⟩, ?_⟩
    rintro h' ⟨hh', hb'⟩
    exact OnChain.unique (fun b c hn => (hp.next b c hn).2.1) hh' hh hb' hb
  home b s hs := (hp.home b s hs).2
  parent := hp.parent
  owned b s h c hs hh hc := by rw [hp.parent_of_onChain hc, hp.owned b s h hs hh]
  jump := hp.jump

/-! ## What steps keep -/

/-- Doing nothing changes nothing. -/
theorem Alters.refl (p : Program) : p.Alters p where
  blocks_size := rfl
  stmts_size := rfl
  functions := rfl
  globals := rfl
  reserved := rfl
  func _ := rfl
  next _ := rfl
  prev _ := rfl
  owner _ := rfl
  dead _ h := h
  home _ := rfl
  parent _ := rfl
  blocks _ := rfl
  endsBlock _ := rfl
  isLoop _ := rfl
  jump _ := rfl
  temp _ _ h := h
  copies _ _ h := h
  stmts _ _ h := h
  nodup _ h := h
  last _ _ _ _ h := h
  definition _ _ h := ⟨h, id⟩

/-- Two parts in a row are a part. -/
theorem Alters.trans {p q r : Program} (h : p.Alters q) (k : q.Alters r) : p.Alters r where
  blocks_size := k.blocks_size.trans h.blocks_size
  stmts_size := k.stmts_size.trans h.stmts_size
  functions := k.functions.trans h.functions
  globals := k.globals.trans h.globals
  reserved := k.reserved.trans h.reserved
  func b := (k.func b).trans (h.func b)
  next b := (k.next b).trans (h.next b)
  prev b := (k.prev b).trans (h.prev b)
  owner b := (k.owner b).trans (h.owner b)
  dead b hb := k.dead b (h.dead b hb)
  home s := (k.home s).trans (h.home s)
  parent s := (k.parent s).trans (h.parent s)
  blocks s := (k.blocks s).trans (h.blocks s)
  endsBlock s := (k.endsBlock s).trans (h.endsBlock s)
  isLoop s := (k.isLoop s).trans (h.isLoop s)
  jump s := (k.jump s).trans (h.jump s)
  temp s t ht := h.temp s t (k.temp s t ht)
  copies s _ hc := h.copies s (k.copies s hc)
  stmts b _ hs := h.stmts b (k.stmts b hs)
  nodup b hb := k.nodup b (h.nodup b hb)
  last b s hs he hl :=
    k.last b s hs ((h.endsBlock s).trans he) (h.last b s (k.stmts b hs) he hl)
  definition t s hd := by
    obtain ⟨hq, hqr⟩ := k.definition t s hd
    obtain ⟨hp, hpq⟩ := h.definition t s hq
    exact ⟨hp, fun ht => hqr (hpq ht)⟩

/-- Doing nothing is a step. -/
theorem Reshapes.refl (p : Program) : p.Reshapes p := ⟨.refl p, fun _ _ _ _ _ h => h⟩

/-- Two steps in a row are a step. -/
theorem Reshapes.trans {p q r : Program} (h : p.Reshapes q) (k : q.Reshapes r) : p.Reshapes r where
  toAlters := h.toAlters.trans k.toAlters
  tied b s t hs ht hp := k.tied b s t hs ht (h.tied b s t (k.stmts b hs) (k.temp s t ht) hp)

private theorem Reshapes.innermost {q : Program} (h : p.Reshapes q) {x : Option StmtId} {l : StmtId}
    (hl : p.Innermost x l) : q.Innermost x l := by
  induction hl with
  | loop hq => exact .loop ((h.isLoop _).trans hq)
  | outward hq _ ih =>
    refine .outward ((h.isLoop _).trans hq) ?_
    rw [h.parent]
    exact ih

private theorem temp?_none_of {a b : Option TempId} (h : ∀ t, b = some t → a = some t) (ha : a = none) :
    b = none := by
  cases b with
  | none => rfl
  | some t => rw [h t rfl] at ha; cases ha

/-- Steps keep the rules. -/
theorem Coherent.of_reshapes {q : Program} (hp : p.Coherent) (h : p.Reshapes q) : q.Coherent where
  home b s hs := by
    rw [h.stmts_size, h.home]
    exact hp.home b s (h.stmts b hs)
  parent b s hs := by
    rw [h.parent, h.owner]
    exact hp.parent b s (h.stmts b hs)
  nodup b := h.nodup b (hp.nodup b)
  unique b1 b2 s1 s2 t h1 h2 ht1 ht2 :=
    hp.unique b1 b2 s1 s2 t (h.stmts b1 h1) (h.stmts b2 h2) (h.temp s1 t ht1) (h.temp s2 t ht2)
  tied b s t hs ht := h.tied b s t hs ht (hp.tied b s t (h.stmts b hs) (h.temp s t ht))
  definition t s hd := by
    obtain ⟨hd, ht⟩ := h.definition t s hd
    exact ht (hp.definition t s hd)
  owner s x hs := by
    rw [h.parent] at hs
    exact temp?_none_of (h.temp x) (hp.owner s x hs)
  copies d c hc := temp?_none_of (h.temp c) (hp.copies d c (h.copies d hc))
  next b c hb := by
    rw [h.next] at hb
    rw [h.prev, h.owner, h.owner]
    exact hp.next b c hb
  prev b c hc := by
    rw [h.prev] at hc
    rw [h.next]
    exact hp.prev b c hc
  owned b s x hs hx := by
    rw [h.blocks] at hx
    rw [h.owner]
    exact hp.owned b s x (h.stmts b hs) hx
  jump b s l hs hl := by
    rw [h.jump] at hl
    rw [h.parent]
    exact h.innermost (hp.jump b s l (h.stmts b hs) hl)

/-- Steps keep the statements that end a block at its end. -/
theorem EndsLast.of_reshapes {q : Program} (hp : p.EndsLast) (h : p.Reshapes q) : q.EndsLast := by
  intro b s hs he
  rw [h.endsBlock] at he
  exact h.last b s hs he (hp b s (h.stmts b hs) he)

end Program

end ScriptOptimizer.IR
