import ScriptOptimizer.Optimize.CommonValues
import ScriptOptimizer.Proofs.OperandText
import ScriptOptimizer.Proofs.Program
import ScriptOptimizer.Proofs.Trees

/-!
# Keys of computations

Common values are found by the texts of computations. Equal texts mean the same operator on the same
operands, up to their order where the operator allows it, exactly if no local that is written by its bare
name is spelled like another operand of the function; temps have names like `t1_3` that a script may use.
Where no local is, every definition that the pass replaces refers to a temp with the same computation.
-/

namespace ScriptOptimizer

variable {op : UnaryOp} {r l o y : Operand} {op' : BinaryOp} {c : Char} {st : State}

/-- Whether an operator is one that no script can write. -/
def UnaryOp.isOther : UnaryOp → Bool
  | other _ => true
  | _ => false

/-- Whether an operator is one that no script can write. -/
def BinaryOp.isOther : BinaryOp → Bool
  | other _ => true
  | _ => false

theorem UnaryOp.symbol_inj {op' : UnaryOp} (h : op.isOther = false) (h' : op'.isOther = false)
    (heq : op.symbol = op'.symbol) : op = op' := by
  have hof {op : UnaryOp} (h : op.isOther = false) : UnaryOp.ofSymbol op.symbol = op := by
    cases op with
    | other s => cases h
    | _ => rfl
  rw [← hof h, heq, hof h']

theorem BinaryOp.symbol_inj {op : BinaryOp} (h : op.isOther = false) (h' : op'.isOther = false)
    (heq : op.symbol = op'.symbol) : op = op' := by
  have hof {op : BinaryOp} (h : op.isOther = false) : BinaryOp.ofSymbol op.symbol = op := by
    cases op with
    | other s => cases h
    | _ => decide
  rw [← hof h, heq, hof h']

namespace IR

variable {x key : Operand} {g : Option Nat}

/-- Whether two computations apply the same operator to the same operands, which may be exchanged if the
operator allows it. -/
def Value.Agrees : Value → Value → Prop
  | unary op x, unary op' y => op = op' ∧ x.Agrees y
  | binary op l r, binary op' l' r' =>
    op = op' ∧ (l.Agrees l' ∧ r.Agrees r' ∨ op.isCommutative = true ∧ l.Agrees r' ∧ r.Agrees l')
  | member o k g, member o' k' g' => o.Agrees o' ∧ k.Agrees k' ∧ g = g'
  | _, _ => False

/-- Whether a computation applies an operator that a script can write to operands of a set. -/
def Value.Over (S : Operand → Prop) : Value → Prop
  | unary op x => op.isOther = false ∧ S x
  | binary op l r => op.isOther = false ∧ S l ∧ S r
  | member o k _ => S o ∧ S k
  | _ => False

/-- Whether no local that is written by its bare name is spelled like another operand of a set. -/
def Unmistakable (S : Operand → Prop) : Prop :=
  ∀ name y, S (.named name false) → S y → y.text = name → y = .named name false

theorem uncut_symbol_unary (h : op.isOther = false) :
    Uncut op.symbol.toList ∧ ∀ r r', op.symbol.toList ++ r ≠ '"' :: r' := by
  cases op with
  | other s => cases h
  | _ => exact ⟨uncut_of_all (by decide), fun r r' heq => by cases heq⟩

theorem isWord_symbol_binary {op : BinaryOp} (h : op.isOther = false) : IsWord op.symbol.toList := by
  cases op with
  | other s => cases h
  | _ => exact ⟨uncut_of_all (by decide), by decide, _, rfl, by decide⟩

/-! ## The text of a key -/

theorem cut_cons {r : List Char} (hc : isCut c = true) : Cut (c :: r) := by
  rintro d hd
  obtain rfl : d = c := (Option.some.inj hd).symm
  exact hc

theorem toList_key_unary {p : Program} {k : String} {b : Bool} (h : CommonValues.key? p (.unary op x) = some (k, b)) :
    k.toList = op.symbol.toList ++ ' ' :: x.text.toList := by
  simp only [CommonValues.key?, Option.some.injEq, Prod.mk.injEq] at h
  rw [← h.1, String.toList_append, String.toList_append, List.append_assoc]
  rfl

/-- The key of a binary operation has the operands in one of the two orders. -/
theorem toList_key_binary {p : Program} {op : BinaryOp} {k : String} {b : Bool}
    (h : CommonValues.key? p (.binary op l r) = some (k, b)) :
    ∃ x y, (x = l ∧ y = r ∨ op.isCommutative = true ∧ x = r ∧ y = l) ∧
      k.toList = x.text.toList ++ ' ' :: (op.symbol.toList ++ ' ' :: y.text.toList) := by
  simp only [CommonValues.key?, Option.some.injEq, Prod.mk.injEq] at h
  obtain ⟨hk, -⟩ := h
  split at hk
  · next hswap =>
    refine ⟨r, l, .inr ⟨(Bool.and_eq_true_iff.mp hswap).1, rfl, rfl⟩, ?_⟩
    rw [← hk]
    simp
  · refine ⟨l, r, .inl ⟨rfl, rfl⟩, ?_⟩
    rw [← hk]
    simp

/-- What the text of a read says of the shape that it observes. -/
def generationText (g : Option Nat) : List Char := (g.map fun g => '@' :: 'g' :: Nat.toDigits 10 g).getD []

theorem generationText_inj {g' : Option Nat} (h : generationText g = generationText g') : g = g' := by
  cases g <;> cases g' <;> simp [generationText] at h
  · rfl
  · exact congrArg some (toDigits_inj h)

theorem toList_key_member {p : Program} {k : String} {b : Bool}
    (h : CommonValues.key? p (.member o key g) = some (k, b)) :
    k.toList = o.text.toList ++ '[' :: (key.text.toList ++ ']' :: generationText g) := by
  simp only [CommonValues.key?, Option.some.injEq, Prod.mk.injEq] at h
  rw [← h.1]
  cases g with
  | none =>
    simp [Value.text, memberText, generationText]
  | some g =>
    simp [Value.text, memberText, generationText]
    rfl

/-! ## Keys tell computations apart -/

section Keys

variable {S : Operand → Prop} {p : Program}

/-- Operands of a set without mistakable names are told apart by their texts. -/
theorem Unmistakable.agrees (hS : ∀ x, S x → x.Legible) (hu : Unmistakable S) (hx : S x)
    (hy : S y) (h : x.text = y.text) : x.Agrees y := by
  have hbare {x : Operand} (hb : x.isBare = true) : ∃ name, x = .named name false := by
    cases x with
    | named name pinned => cases pinned with
      | false => exact ⟨name, rfl⟩
      | true => cases hb
    | _ => cases hb
  cases hbx : x.isBare with
  | true =>
    obtain ⟨name, rfl⟩ := hbare hbx
    exact .inl (hu name y hx hy h.symm).symm
  | false =>
    cases hby : y.isBare with
    | true =>
      obtain ⟨name, rfl⟩ := hbare hby
      exact .inl (hu name x hy hx h)
    | false => exact Operand.agrees_of_text (hS x hx) (hS y hy) hbx hby h

/-- What starts with a word and goes on behind a blank is not the text of one operand. -/
theorem Operand.Legible.text_ne (hx : x.Legible) {w r : List Char} (hw : IsWord w)
    (hc : isCut c = true) : x.text.toList ≠ w ++ c :: r := by
  intro heq
  obtain ⟨t, rfl, -⟩ | rfl | hword := hx.text_cases
  · rw [toList_string] at heq
    exact hw.ne_quote heq.symm
  · rw [toList_undefined] at heq
    exact hw.ne_undefined (cut_cons hc) heq.symm
  · have hcut := hword.uncut c (heq ▸ by simp)
    rw [hc] at hcut
    cases hcut

/-- An operator that stands in front of its operand is no operand that something follows. -/
theorem unary_key_ne (hop : op.isOther = false) (hx : x.Legible) (hy : y.Legible)
    {r : List Char} (hc : isCut c = true) (hr : c = ' ' → x.text.toList ≠ r) :
    op.symbol.toList ++ ' ' :: x.text.toList ≠ y.text.toList ++ c :: r := by
  obtain ⟨huncut, hquote⟩ := uncut_symbol_unary hop
  have hblank : Cut (' ' :: x.text.toList) := cut_cons (by decide)
  intro heq
  obtain ⟨t, rfl, -⟩ | rfl | hword := hy.text_cases
  · rw [toList_string] at heq
    exact hquote _ _ heq
  · -- The operator is `void` and its operand starts with the word that ends `undefined`.
    rw [toList_undefined, List.append_assoc] at heq
    obtain ⟨-, hrest⟩ := huncut.append_inj (uncut_of_all (by decide)) hblank (cut_cons (by decide)) heq
    have hzero : IsWord ['0'] := .of_head (uncut_of_all (by decide)) '0' rfl (by decide) (by decide)
    exact hx.text_ne hzero hc (List.cons.inj hrest).2
  · obtain ⟨-, hrest⟩ := huncut.append_inj hword.uncut hblank (cut_cons hc) heq
    obtain ⟨hc', htext⟩ := List.cons.inj hrest
    exact hr hc'.symm htext

section Agreement

variable (hS : ∀ x, S x → x.Legible) (hu : Unmistakable S) {q : Program} {k : String} {b b' : Bool}

include hS

theorem Unmistakable.agrees_unary (hu : Unmistakable S) {op' : UnaryOp}
    (hv : (Value.unary op x).Over S) (hw : (Value.unary op' y).Over S)
    (hk : CommonValues.key? p (.unary op x) = some (k, b))
    (hk' : CommonValues.key? q (.unary op' y) = some (k, b')) : (Value.unary op x).Agrees (.unary op' y) := by
  obtain ⟨hop, hx⟩ := hv
  obtain ⟨hop', hy⟩ := hw
  have hkey := (toList_key_unary hk).symm.trans (toList_key_unary hk')
  obtain ⟨hsymbol, htext⟩ := (uncut_symbol_unary hop).1.append_inj (uncut_symbol_unary hop').1
    (cut_cons (by decide)) (cut_cons (by decide)) hkey
  exact ⟨UnaryOp.symbol_inj hop hop' (String.toList_inj.mp hsymbol),
    hu.agrees hS hx hy (String.toList_inj.mp (List.cons.inj htext).2)⟩

theorem Unmistakable.agrees_binary (hu : Unmistakable S) {op : BinaryOp} {l' r' : Operand}
    (hv : (Value.binary op l r).Over S) (hw : (Value.binary op' l' r').Over S)
    (hk : CommonValues.key? p (.binary op l r) = some (k, b))
    (hk' : CommonValues.key? q (.binary op' l' r') = some (k, b')) :
    (Value.binary op l r).Agrees (.binary op' l' r') := by
  obtain ⟨hop, hl, hr⟩ := hv
  obtain ⟨hop', hl', hr'⟩ := hw
  obtain ⟨x, y, horder, hkey⟩ := toList_key_binary hk
  obtain ⟨x', y', horder', hkey'⟩ := toList_key_binary hk'
  have hxy : S x ∧ S y := by
    obtain ⟨rfl, rfl⟩ | ⟨-, rfl, rfl⟩ := horder
    · exact ⟨hl, hr⟩
    · exact ⟨hr, hl⟩
  have hxy' : S x' ∧ S y' := by
    obtain ⟨rfl, rfl⟩ | ⟨-, rfl, rfl⟩ := horder'
    · exact ⟨hl', hr'⟩
    · exact ⟨hr', hl'⟩
  obtain ⟨hfirst, hrest⟩ := Operand.text_append_inj (hS x hxy.1) (hS x' hxy'.1) (cut_cons (by decide))
    (cut_cons (by decide)) (hkey.symm.trans hkey')
  obtain ⟨hsymbol, hlast⟩ := (isWord_symbol_binary hop).uncut.append_inj (isWord_symbol_binary hop').uncut
    (cut_cons (by decide)) (cut_cons (by decide)) (List.cons.inj hrest).2
  obtain rfl := BinaryOp.symbol_inj hop hop' (String.toList_inj.mp hsymbol)
  have hx := hu.agrees hS hxy.1 hxy'.1 hfirst
  have hy := hu.agrees hS hxy.2 hxy'.2 (String.toList_inj.mp (List.cons.inj hlast).2)
  refine ⟨rfl, ?_⟩
  obtain ⟨rfl, rfl⟩ | ⟨hcomm, rfl, rfl⟩ := horder <;> obtain ⟨rfl, rfl⟩ | ⟨hcomm', rfl, rfl⟩ := horder'
  · exact .inl ⟨hx, hy⟩
  · exact .inr ⟨hcomm', hx, hy⟩
  · exact .inr ⟨hcomm, hy, hx⟩
  · exact .inl ⟨hy, hx⟩

theorem Unmistakable.agrees_member (hu : Unmistakable S) {o' key' : Operand} {g' : Option Nat}
    (hv : (Value.member o key g).Over S) (hw : (Value.member o' key' g').Over S)
    (hk : CommonValues.key? p (.member o key g) = some (k, b))
    (hk' : CommonValues.key? q (.member o' key' g') = some (k, b')) :
    (Value.member o key g).Agrees (.member o' key' g') := by
  have heq := (toList_key_member hk).symm.trans (toList_key_member hk')
  obtain ⟨hobject, hrest⟩ := Operand.text_append_inj (hS o hv.1) (hS o' hw.1) (cut_cons (by decide))
    (cut_cons (by decide)) heq
  obtain ⟨hname, hlast⟩ := Operand.text_append_inj (hS key hv.2) (hS key' hw.2) (cut_cons (by decide))
    (cut_cons (by decide)) (List.cons.inj hrest).2
  exact ⟨hu.agrees hS hv.1 hw.1 hobject, hu.agrees hS hv.2 hw.2 hname,
    generationText_inj (List.cons.inj hlast).2⟩

/-- A unary operation and a binary one have different keys. -/
theorem unary_binary_key_ne (hv : (Value.unary op x).Over S)
    (hw : (Value.binary op' l r).Over S) (hk : CommonValues.key? p (.unary op x) = some (k, b)) :
    CommonValues.key? q (.binary op' l r) ≠ some (k, b') := by
  intro hk'
  obtain ⟨y, z, horder, hkey⟩ := toList_key_binary hk'
  have hy : S y := by
    obtain ⟨rfl, -⟩ | ⟨-, rfl, -⟩ := horder
    · exact hw.2.1
    · exact hw.2.2
  refine unary_key_ne hv.1 (hS x hv.2) (hS y hy) (by decide) (fun _ => ?_)
    ((toList_key_unary hk).symm.trans hkey)
  exact (hS x hv.2).text_ne (isWord_symbol_binary hw.1) (by decide)

/-- A unary operation and the read of a property have different keys. -/
theorem unary_member_key_ne (hv : (Value.unary op x).Over S)
    (hw : (Value.member o key g).Over S) (hk : CommonValues.key? p (.unary op x) = some (k, b)) :
    CommonValues.key? q (.member o key g) ≠ some (k, b') := fun hk' =>
  unary_key_ne hv.1 (hS x hv.2) (hS o hw.1) (by decide) (fun h => by cases h)
    ((toList_key_unary hk).symm.trans (toList_key_member hk'))

/-- A binary operation and the read of a property have different keys. -/
theorem binary_member_key_ne {op : BinaryOp} (hv : (Value.binary op l r).Over S)
    (hw : (Value.member o key g).Over S) (hk : CommonValues.key? p (.binary op l r) = some (k, b)) :
    CommonValues.key? q (.member o key g) ≠ some (k, b') := by
  intro hk'
  obtain ⟨x, y, horder, hkey⟩ := toList_key_binary hk
  have hx : S x := by
    obtain ⟨rfl, -⟩ | ⟨-, rfl, -⟩ := horder
    · exact hv.2.1
    · exact hv.2.2
  have hrest := (Operand.text_append_inj (hS x hx) (hS o hw.1) (cut_cons (by decide))
    (cut_cons (by decide)) (hkey.symm.trans (toList_key_member hk'))).2
  cases hrest

/-- Equal keys mean equal computations, if no local is spelled like another operand. -/
theorem Unmistakable.agrees_of_key (hu : Unmistakable S) {v w : Value} (hv : v.Over S) (hw : w.Over S)
    (hk : CommonValues.key? p v = some (k, b)) (hk' : CommonValues.key? q w = some (k, b')) :
    v.Agrees w := by
  cases v with
  | unary op x =>
    cases w with
    | unary op' y => exact hu.agrees_unary hS hv hw hk hk'
    | binary op' l r => exact absurd hk' (unary_binary_key_ne hS hv hw hk)
    | member o key g => exact absurd hk' (unary_member_key_ne hS hv hw hk)
    | _ => cases hw
  | binary op l r =>
    cases w with
    | unary op' y => exact absurd hk (unary_binary_key_ne hS hw hv hk')
    | binary op' l' r' => exact hu.agrees_binary hS hv hw hk hk'
    | member o key g => exact absurd hk' (binary_member_key_ne hS hv hw hk)
    | _ => cases hw
  | member o key g =>
    cases w with
    | unary op' y => exact absurd hk (unary_member_key_ne hS hw hv hk')
    | binary op' l' r' => exact absurd hk (binary_member_key_ne hS hw hv hk')
    | member o' key' g' => exact hu.agrees_member hS hv hw hk hk'
    | _ => cases hw
  | _ => cases hv

end Agreement

/-- Whether equal keys mean equal computations over the operands of a set. -/
def KeysIdentify (S : Operand → Prop) : Prop :=
  ∀ p v w k b b', v.Over S → w.Over S → CommonValues.key? p v = some (k, b) →
    CommonValues.key? p w = some (k, b') → v.Agrees w

/-- Keys identify computations exactly if no local is spelled like another operand. -/
theorem keysIdentify_iff (hS : ∀ x, S x → x.Legible) : KeysIdentify S ↔ Unmistakable S := by
  refine ⟨fun h name y hname hy htext => ?_, fun hu p v w k b b' hv hw hk hk' =>
    hu.agrees_of_key hS hv hw hk hk'⟩
  have hagrees := h {} (.unary .minus (.named name false)) (.unary .minus y) _ _ _ ⟨rfl, hname⟩
    ⟨rfl, hy⟩ rfl (by rw [CommonValues.key?, htext]; rfl)
  obtain heq | hsame := hagrees.2
  · exact heq.symm
  · exact (of_decide_eq_true (p := Operand.named name false = y) (by cases y <;> exact hsame)).symm

end Keys

/-! ## What is reused -/

/-- The operands of the computations among some statements. -/
def Program.ComputedIn (p : Program) (F : StmtId → Prop) (x : Operand) : Prop :=
  ∃ s t v placement, F s ∧ (p.stmt s).action = .define t v placement ∧
    (CommonValues.key? p v).isSome = true ∧ x ∈ v.operands

/-- Whether the computations among some statements can be read from their texts. -/
def Program.LegibleIn (p : Program) (F : StmtId → Prop) : Prop :=
  ∀ s t v placement, F s → (p.stmt s).action = .define t v placement →
    (CommonValues.key? p v).isSome = true → v.Over Operand.Legible

/-- Whether a temp is defined by a computation that agrees with a given one. -/
def Program.Holds (p : Program) (t : TempId) (v : Value) : Prop :=
  ∃ s w placement, (p.stmt s).action = .define t w placement ∧ v.Agrees w

end IR

namespace CommonValues

open IR

variable {v : Value} {s : StmtId} {t : TempId} {placement : Placement}

/-- What reuse does to a program: the definition of a temp may become a reference to a temp that holds the
same computation. -/
structure Reuses (p q : Program) : Prop where
  blocks : q.blocks = p.blocks
  functions : q.functions = p.functions
  stmt : ∀ s, (q.stmt s).action = (p.stmt s).action ∨
    ∃ t v placement prev, (p.stmt s).action = .define t v placement ∧
      (q.stmt s).action = .define t (.operand (.temp prev)) placement ∧ p.Holds prev v

/-- Whether a table holds computations among some statements. -/
def Available.Sound (p : Program) (F : StmtId → Prop) (a : Available) : Prop :=
  ∀ (k : String) t, a[k]? = some t → ∃ s w placement b, F s ∧
    (p.stmt s).action = .define t w placement ∧ key? p w = some (k, b)

variable {p q : Program} {F : StmtId → Prop}

theorem Reuses.refl (p : Program) : Reuses p p := ⟨rfl, rfl, fun _ => .inl rfl⟩

theorem Available.sound_empty : Available.Sound p F {} := by
  intro k t h
  simp at h

theorem Available.Sound.insert {a : Available} (ha : Available.Sound p F a) {k : String} {b : Bool} (hs : F s)
    (hdef : (p.stmt s).action = .define t v placement) (hk : key? p v = some (k, b)) :
    Available.Sound p F (a.insert k t) := by
  intro k' t' h
  rw [Std.TreeMap.getElem?_insert] at h
  split at h
  · next heq =>
    obtain rfl := Std.LawfulEqOrd.eq_of_compare heq
    obtain rfl := Option.some.inj h
    exact ⟨s, v, placement, b, hs, hdef, hk⟩
  · exact ha k' t' h

/-- The text of a key does not depend on the program. -/
theorem key?_text (p : Program) {k : String} {b : Bool} (h : key? q v = some (k, b)) :
    ∃ b', key? p v = some (k, b') := by
  cases v with
  | unary | binary | member =>
    simp only [key?, Option.some.injEq, Prod.mk.injEq] at h ⊢
    exact ⟨_, h.1, rfl⟩
  | _ => cases h

/-- The state of the pass over some statements of a program. -/
structure State.Sound (p : Program) (F : StmtId → Prop) (st : State) : Prop where
  reuses : Reuses p st.program
  lasting : Available.Sound p F st.lasting
  passing : Available.Sound p F st.passing

/-- The computations among some statements are computations over their operands. -/
theorem over_computedIn (hl : p.LegibleIn F) (hs : F s) (hdef : (p.stmt s).action = .define t v placement)
    (hk : (key? p v).isSome = true) : v.Over (p.ComputedIn F) := by
  have hmem (x : Operand) (hx : x ∈ v.operands) : p.ComputedIn F x := ⟨s, t, v, placement, hs, hdef, hk, hx⟩
  have hv := hl s t v placement hs hdef hk
  cases v with
  | unary op x => exact ⟨hv.1, hmem x (by simp [Value.operands])⟩
  | binary op l r => exact ⟨hv.1, hmem l (by simp [Value.operands]), hmem r (by simp [Value.operands])⟩
  | member o k g => exact ⟨hmem o (by simp [Value.operands]), hmem k (by simp [Value.operands])⟩
  | _ => cases hv

theorem legible_computedIn (hl : p.LegibleIn F) (x : Operand) (hx : p.ComputedIn F x) : x.Legible := by
  obtain ⟨s, t, v, placement, hs, hdef, hk, hx⟩ := hx
  have hv := hl s t v placement hs hdef hk
  cases v with
  | unary op y =>
    obtain rfl : x = y := by simpa [Value.operands] using hx
    exact hv.2
  | binary op l r =>
    obtain rfl | rfl : x = l ∨ x = r := by simpa [Value.operands] using hx
    · exact hv.2.1
    · exact hv.2.2
  | member o k g =>
    obtain rfl | rfl : x = o ∨ x = k := by simpa [Value.operands] using hx
    · exact hv.1
    · exact hv.2
  | _ => cases hv

/-- A computation that is found in a table is held by the temp that stands there. -/
theorem Available.Sound.holds (hl : p.LegibleIn F) (hu : Unmistakable (p.ComputedIn F)) {a : Available}
    (ha : a.Sound p F) {prev : TempId} {k : String} {b : Bool} (hs : F s)
    (hdef : (p.stmt s).action = .define t v placement) (hk : key? p v = some (k, b)) (hprev : a[k]? = some prev) :
    p.Holds prev v := by
  obtain ⟨s', w, placement', b', hs', hdef', hk'⟩ := ha k prev hprev
  exact ⟨s', w, placement', hdef', hu.agrees_of_key (legible_computedIn hl)
    (over_computedIn hl hs hdef (by simp [hk])) (over_computedIn hl hs' hdef' (by simp [hk'])) hk hk'⟩

/-- The definitions that are still computations are those of the first program. -/
theorem Reuses.action_eq (h : Reuses p q) (hdef : (q.stmt s).action = .define t v placement)
    (hk : (key? q v).isSome = true) : (p.stmt s).action = .define t v placement := by
  obtain heq | ⟨t', v', placement', prev, -, hq, -⟩ := h.stmt s
  · rw [← heq, hdef]
  · rw [hdef] at hq
    cases hq
    cases hk

theorem Reuses.modifyStmt (h : Reuses p q) {prev : TempId} (hdef : (p.stmt s).action = .define t v placement)
    (hholds : p.Holds prev v) : Reuses p (q.modifyStmt s fun x =>
      { x with action := .define t (.operand (.temp prev)) placement, effects := [] }) where
  blocks := h.blocks
  functions := h.functions
  stmt s' := by
    rw [Program.stmt_modifyStmt]
    split
    · next hs =>
      rw [hs.1]
      exact .inr ⟨t, v, placement, prev, hdef, rfl, hholds⟩
    · exact h.stmt s'

/-- A statement is reused or recorded. -/
theorem State.Sound.compute (hl : p.LegibleIn F) (hu : Unmistakable (p.ComputedIn F))
    (hst : st.Sound p F) {s : StmtId} (hs : F s) : (compute s st).Sound p F := by
  unfold CommonValues.compute
  dsimp only
  split
  · next t v placement hdef =>
    split
    · exact hst
    · split
      · exact hst
      · next k isVolatile hk =>
        have hdef' := hst.reuses.action_eq hdef (by simp [hk])
        obtain ⟨b, hkey⟩ := key?_text p hk
        split
        · next prev hprev =>
          have hholds : p.Holds prev v := by
            cases isVolatile with
            | true => exact hst.passing.holds hl hu hs hdef' hkey hprev
            | false => exact hst.lasting.holds hl hu hs hdef' hkey hprev
          exact ⟨hst.reuses.modifyStmt hdef' hholds, hst.lasting, hst.passing⟩
        · split
          · exact ⟨hst.reuses, hst.lasting, hst.passing.insert hs hdef' hkey⟩
          · exact ⟨hst.reuses, hst.lasting.insert hs hdef' hkey, hst.passing⟩
  · exact hst

/-- How a walk treats the chains from some blocks on. -/
def Walk.Sound (p : Program) (F : StmtId → Prop) (walk : Walk) (bs : List BlockId) : Prop :=
  ∀ b ∈ bs, ∀ q a, Reuses p q → Available.Sound p F a →
    Reuses p (walk b (q, a)).1 ∧ Available.Sound p F (walk b (q, a)).2

theorem State.Sound.nested {walk : Walk} {a : Action} (hw : walk.Sound p F a.blocks)
    (hst : st.Sound p F) : (nested walk a st).Sound p F := by
  unfold CommonValues.nested
  dsimp only
  split
  · next test cond body rounds =>
    obtain ⟨htest, hlasting⟩ := hw test (by simp [Action.blocks, Loop.blocks]) st.program st.lasting
      hst.reuses hst.lasting
    exact ⟨(hw body (by simp [Action.blocks, Loop.blocks]) _ _ htest hlasting).1, hst.lasting, hst.passing⟩
  · refine ⟨?_, hst.lasting, hst.passing⟩
    exact List.foldlRecOn (motive := Reuses p) _ _ hst.reuses fun q hq b hb => (hw b hb q _ hq hst.lasting).1

/-- The blocks that a statement owns stay the same. -/
theorem Reuses.blocks_action (h : Reuses p q) (s : StmtId) :
    (q.stmt s).action.blocks = (p.stmt s).action.blocks := by
  obtain heq | ⟨t, v, placement, prev, hp, hq, -⟩ := h.stmt s
  · rw [heq]
  · rw [hp, hq]
    rfl

theorem State.Sound.stmt (hl : p.LegibleIn F) (hu : Unmistakable (p.ComputedIn F)) {walk : Walk}
    (hst : st.Sound p F) {s : StmtId} (hs : F s)
    (hw : walk.Sound p F (p.stmt s).action.blocks) : (stmt walk st s).Sound p F := by
  unfold CommonValues.stmt
  split
  · have hcompute := hst.compute hl hu hs
    rw [← hcompute.reuses.blocks_action] at hw
    refine State.Sound.nested hw ?_
    split
    · exact ⟨hcompute.reuses, hcompute.lasting, Available.sound_empty⟩
    · exact hcompute
  · exact hst

/-- The walk along a chain reuses computations of its statements. -/
theorem chain_sound (hl : p.LegibleIn F) (hu : Unmistakable (p.ComputedIn F)) (fuel : Nat)
    (b : Option BlockId) (hF : ∀ s ∈ p.chainStmts fuel b, F s) (q : Program) (a : Available)
    (hq : Reuses p q) (ha : a.Sound p F) :
    Reuses p (chain fuel b (q, a)).1 ∧ Available.Sound p F (chain fuel b (q, a)).2 := by
  induction fuel generalizing b q a with
  | zero => exact ⟨hq, ha⟩
  | succ fuel ih =>
    cases b with
    | none => exact ⟨hq, ha⟩
    | some b =>
      have hblock : q.block b = p.block b := by rw [Program.block, Program.block, hq.blocks]
      unfold chain
      unfold Program.chainStmts at hF
      rw [hblock]
      split
      · exact ⟨hq, ha⟩
      · next hdead =>
        simp only [hdead, Bool.false_eq_true, if_false, List.mem_append, List.mem_flatMap] at hF
        have hfold := List.foldlRecOn (motive := State.Sound p F) (p.block b).stmts
          (CommonValues.stmt fun b => chain fuel (some b)) (b := { program := q, lasting := a })
          ⟨hq, ha, Available.sound_empty⟩ fun st hst s hs =>
            hst.stmt hl hu (hF s (.inl ⟨s, hs, List.mem_cons_self⟩)) fun b' hb' q' a' hq' ha' =>
              ih (some b') (fun s' hs' => hF s' (.inl ⟨s, hs, List.mem_cons_of_mem _
                (List.mem_flatMap.mpr ⟨b', hb', hs'⟩)⟩)) q' a' hq' ha'
        refine ih _ (fun s hs => hF s (.inr ?_)) _ _ hfold.reuses hfold.lasting
        rwa [Program.block, hfold.reuses.blocks, ← Program.block] at hs

/-- Every definition that the pass replaces held the computation that it refers to, if in no function a
local is spelled like another operand. -/
theorem run_reuses (hl : ∀ f, p.LegibleIn (· ∈ p.functionStmts f))
    (hu : ∀ f, Unmistakable (p.ComputedIn (· ∈ p.functionStmts f))) : Reuses p (run p) := by
  refine List.foldlRecOn (motive := Reuses p) _ _ (.refl p) fun q hq f _ => ?_
  have hfirst : q.firstBlock? f = p.firstBlock? f := by
    rw [Program.firstBlock?, Program.function, hq.functions]
    rfl
  have hdepth : q.depth = p.depth := by rw [Program.depth, hq.blocks]; rfl
  rw [hfirst, hdepth]
  exact (chain_sound (hl f) (hu f) p.depth (p.firstBlock? f) (fun s hs => hs) q {} hq
    Available.sound_empty).1

/-- In every function whose computations can be read from their texts, keys identify computations exactly
if no local is spelled like another operand of a computation; where this holds in all functions, the pass
only reuses temps that hold the same computation. -/
theorem keys_identify {p : Program} (hl : ∀ f, p.LegibleIn (· ∈ p.functionStmts f)) :
    (∀ f, KeysIdentify (p.ComputedIn (· ∈ p.functionStmts f)) ↔
      Unmistakable (p.ComputedIn (· ∈ p.functionStmts f))) ∧
    ((∀ f, Unmistakable (p.ComputedIn (· ∈ p.functionStmts f))) → Reuses p (run p)) :=
  ⟨fun f => keysIdentify_iff (legible_computedIn (hl f)), run_reuses hl⟩

/-- The computation that a statement makes. -/
def computation? (s : IR.Stmt) : Option Value :=
  match s.action with
  | .define _ v _ => if (key? {} v).isSome then some v else none
  | _ => none

theorem computation?_mem (hdef : (p.stmt s).action = .define t v placement) (hk : (key? p v).isSome = true) :
    v ∈ p.stmts.toList.filterMap computation? := by
  obtain ⟨⟨k, b⟩, hk⟩ := Option.isSome_iff_exists.mp hk
  obtain ⟨b', hk'⟩ := key?_text {} hk
  have hs : s < p.stmts.size := by
    by_contra hge
    rw [Program.stmt_of_ge _ s (Nat.le_of_not_lt hge)] at hdef
    cases hdef
  refine List.mem_filterMap.mpr ⟨p.stmt s, ?_, by simp [computation?, hdef, hk']⟩
  rw [Program.stmt, Array.getD_eq_getD_getElem?, Array.getElem?_eq_getElem hs]
  exact Array.mem_toList_iff.mpr (Array.getElem_mem hs)

/-- Whether a computation can be read from its text. -/
def isLegible : Value → Bool
  | .unary op x => !op.isOther && decide x.Legible
  | .binary op l r => !op.isOther && (decide l.Legible && decide r.Legible)
  | .member o k _ => decide o.Legible && decide k.Legible
  | _ => false

theorem over_legible (h : isLegible v = true) : v.Over Operand.Legible := by
  cases v with
  | unary | binary | member => simpa [isLegible, Value.Over] using h
  | _ => cases h

/-- Computations can be read from their texts if each of them passes the check. -/
theorem legibleIn_of_all (h : (p.stmts.toList.filterMap computation?).all isLegible = true)
    (F : StmtId → Prop) : p.LegibleIn F := fun _ _ v _ _ hdef hk =>
  over_legible (List.all_eq_true.mp h v (computation?_mem hdef hk))

/-- A function of two parameters that multiplies them in either order. -/
def products : String := "function h(a, b) \x7b return [a * b, b * a]; \x7d"

/-- The second product is the first one. -/
theorem keys_identify_product :
    ∃ x p, Script.parse "" products = .ok x ∧ x.lower = .ok p ∧ (∀ f, p.LegibleIn (· ∈ p.functionStmts f)) ∧
      (∀ f, KeysIdentify (p.ComputedIn (· ∈ p.functionStmts f))) ∧ Reuses p (run p) ∧
      (p.stmt 1).action =
        .define ⟨1, 1⟩ (.binary .multiply (.named "b" false) (.named "a" false)) .undecided ∧
      ((run p).stmt 1).action = .define ⟨1, 1⟩ (.operand (.temp ⟨1, 0⟩)) .undecided := by
  obtain ⟨x, p, hx, h, hp⟩ := Script.exists_lower products (fun _ p =>
    (p.stmts.toList.filterMap computation?).all isLegible = true ∧
    (∀ v ∈ p.stmts.toList.filterMap computation?,
      ∀ y ∈ v.operands, y = .named "a" false ∨ y = .named "b" false) ∧
    (p.stmt 1).action =
      .define ⟨1, 1⟩ (.binary .multiply (.named "b" false) (.named "a" false)) .undecided ∧
    ((run p).stmt 1).action = .define ⟨1, 1⟩ (.operand (.temp ⟨1, 0⟩)) .undecided) (by decide +kernel)
  obtain ⟨hlegible, hoperands, hstmt, hrun⟩ := of_decide_eq_true hp
  have hl : ∀ f, p.LegibleIn (· ∈ p.functionStmts f) := fun f => legibleIn_of_all hlegible _
  have hu : ∀ f, Unmistakable (p.ComputedIn (· ∈ p.functionStmts f)) := by
    intro f name y _ ⟨s, t, v, placement, _, hdef, hk, hy⟩ htext
    obtain rfl | rfl := hoperands v (computation?_mem hdef hk) y hy <;> subst htext <;> rfl
  obtain ⟨hiff, hreuses⟩ := keys_identify hl
  exact ⟨x, p, hx, h, hl, fun f => (hiff f).mpr (hu f), hreuses hu, hstmt, hrun⟩

/-- A function that adds one to the result of a call and to a parameter that is spelled like its temp. -/
def mistakableSum : String :=
  "function h(t1_3) \x7b var x = g(); var a = x + 1; var b = t1_3 + 1; return [a, b]; \x7d"

/-- The sum over the parameter is replaced by the sum over the result of the call. -/
theorem run_mistakableScript :
    ∃ x p, Script.parse "" mistakableSum = .ok x ∧ x.lower = .ok p ∧
      (p.stmt 4).action =
        .define ⟨1, 4⟩ (.binary .add (.temp ⟨1, 3⟩) (.literal (.number 1))) .undecided ∧
      (p.stmt 5).action =
        .define ⟨1, 5⟩ (.binary .add (.named "t1_3" false) (.literal (.number 1))) .undecided ∧
      ((run p).stmt 5).action = .define ⟨1, 5⟩ (.operand (.temp ⟨1, 4⟩)) .undecided ∧
      ¬ (Value.binary .add (.named "t1_3" false) (.literal (.number 1))).Agrees
        (.binary .add (.temp ⟨1, 3⟩) (.literal (.number 1))) := by
  obtain ⟨x, p, hx, h, hp⟩ := Script.exists_lower mistakableSum (fun _ p =>
    (p.stmt 4).action =
      .define ⟨1, 4⟩ (.binary .add (.temp ⟨1, 3⟩) (.literal (.number 1))) .undecided ∧
    (p.stmt 5).action =
      .define ⟨1, 5⟩ (.binary .add (.named "t1_3" false) (.literal (.number 1))) .undecided ∧
    ((run p).stmt 5).action = .define ⟨1, 5⟩ (.operand (.temp ⟨1, 4⟩)) .undecided) (by decide +kernel)
  obtain ⟨hcall, hparameter, hrun⟩ := of_decide_eq_true hp
  refine ⟨x, p, hx, h, hcall, hparameter, hrun, ?_⟩
  simp [Value.Agrees, Operand.Agrees, Operand.same, BinaryOp.isCommutative]

end CommonValues

end ScriptOptimizer
