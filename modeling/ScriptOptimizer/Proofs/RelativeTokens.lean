import Mathlib.Data.Int.Notation
import ScriptOptimizer.Server.Semantic

/-!
# Tokens relative to one another

A client adds the numbers of the tokens up again. The tokens of a script come in the order of the text, so
no difference that is sent wraps around and the client gets the very tokens.
-/

namespace ScriptOptimizer.Semantic

/-- The tokens that numbers stand for behind a line and a column. -/
def decodeFrom (line column : UInt32) : List UInt32 → Option (List SemanticToken)
  | [] => some []
  | down :: start :: length :: kind :: bits :: ns => do
    let line' := if down = 0 then line else line + down
    let column' := if down = 0 then column + start else start
    let k ← kinds[kind.toNat]?
    let ts ← decodeFrom line' column' ns
    return ⟨line', column', length, k, bits &&& 1 ≠ 0⟩ :: ts
  | _ => none

/-- The tokens that numbers stand for. -/
def decode (ns : List UInt32) : Option (List SemanticToken) := decodeFrom 0 0 ns

/-- The differences that tokens are sent as, as integers. -/
def differences (line column : ℤ) : List SemanticToken → List ℤ
  | [] => []
  | t :: ts =>
    let start := if t.line.toNat = line then t.column.toNat - column else t.column.toNat
    (t.line.toNat - line) :: start :: t.length.toNat :: t.kind.index :: t.bits.toNat ::
      differences t.line.toNat t.column.toNat ts

/-- A token does not stand in front of a line and a column. -/
def SemanticToken.Behind (line column : UInt32) (t : SemanticToken) : Prop :=
  line < t.line ∨ line = t.line ∧ column ≤ t.column

theorem SemanticToken.le_iff {a b : SemanticToken} : a.le b ↔ b.Behind a.line a.column := by
  simp [le, Behind]

theorem down_eq_zero {a b : UInt32} : a - b = 0 ↔ b = a :=
  ⟨fun h => by rw [← UInt32.sub_add_cancel a b, h, UInt32.zero_add], fun h => h ▸ UInt32.sub_self _⟩

/-- The numbers of a token behind the one before it are its differences. -/
theorem SemanticToken.Behind.toNat_sub {line column : UInt32} {t : SemanticToken}
    (h : t.Behind line column) :
    ((t.line - line).toNat : ℤ) = t.line.toNat - line.toNat ∧
      (line = t.line → ((t.column - column).toNat : ℤ) = t.column.toNat - column.toNat) := by
  have hline : line ≤ t.line := h.elim UInt32.le_of_lt fun h => h.1 ▸ UInt32.le_refl _
  refine ⟨?_, fun e => ?_⟩
  · rw [UInt32.toNat_sub_of_le _ _ hline]
    exact Int.ofNat_sub (UInt32.le_iff_toNat_le.1 hline)
  · have hcolumn : column ≤ t.column := (h.resolve_left (e ▸ UInt32.lt_irrefl _)).2
    rw [UInt32.toNat_sub_of_le _ _ hcolumn]
    exact Int.ofNat_sub (UInt32.le_iff_toNat_le.1 hcolumn)

theorem kinds_index (k : Kind) : kinds[(UInt32.ofNat k.index).toNat]? = some k := by
  cases k <;> rfl

theorem toNat_index (k : Kind) : (UInt32.ofNat k.index).toNat = k.index := by
  cases k <;> rfl

theorem bits_one (t : SemanticToken) : decide (t.bits &&& 1 ≠ 0) = t.isDeclaration := by
  cases h : t.isDeclaration <;> simp [SemanticToken.bits, h]

/-- Adding up gives back the tokens, wrapped around or not. -/
theorem decodeFrom_encodeFrom (line column : UInt32) (ts : List SemanticToken) :
    decodeFrom line column (encodeFrom line column ts) = some ts := by
  induction ts generalizing line column with
  | nil => rfl
  | cons t ts ih =>
    have hline : (if t.line - line = 0 then line else line + (t.line - line)) = t.line := by
      split
      · exact down_eq_zero.1 ‹_›
      · rw [UInt32.add_comm, UInt32.sub_add_cancel]
    have hcolumn : (if t.line - line = 0 then
        column + if t.line - line = 0 then t.column - column else t.column
        else if t.line - line = 0 then t.column - column else t.column) = t.column := by
      split
      · rw [UInt32.add_comm, UInt32.sub_add_cancel]
      · rfl
    simp only [encodeFrom, decodeFrom, hline, hcolumn, kinds_index, ih, bits_one]
    rfl

/-- The numbers of tokens in order are their differences. -/
theorem encodeFrom_eq_differences {line column : UInt32} {ts : List SemanticToken}
    (h : ∀ t ∈ ts, t.Behind line column)
    (sorted : ts.Pairwise fun a b => b.Behind a.line a.column) :
    (encodeFrom line column ts).map (fun n => (n.toNat : ℤ)) =
      differences line.toNat column.toNat ts := by
  induction ts generalizing line column with
  | nil => rfl
  | cons t ts ih =>
    obtain ⟨first, rest⟩ := List.pairwise_cons.1 sorted
    obtain ⟨hline, hcolumn⟩ := (h t List.mem_cons_self).toNat_sub
    simp only [encodeFrom, List.map_cons, differences, ih first rest, hline, toNat_index,
      down_eq_zero]
    by_cases e : line = t.line
    · simp [e, hcolumn e]
    · have ne : ¬ (t.line.toNat : ℤ) = line.toNat := fun h =>
        e (UInt32.toNat_inj.1 (Int.ofNat_inj.1 h)).symm
      rw [if_neg e, if_neg ne]

theorem collect_sorted (s : Script) :
    (collect s).Pairwise fun a b => b.Behind a.line a.column := by
  refine (List.pairwise_mergeSort ?_ ?_ _).imp SemanticToken.le_iff.1
  · intro a b c
    simp only [SemanticToken.le_iff, SemanticToken.Behind, UInt32.lt_iff_toNat_lt,
      UInt32.le_iff_toNat_le, ← UInt32.toNat_inj]
    omega
  · intro a b
    simp only [Bool.or_eq_true, SemanticToken.le_iff, SemanticToken.Behind, UInt32.lt_iff_toNat_lt,
      UInt32.le_iff_toNat_le, ← UInt32.toNat_inj]
    omega

/-- The tokens of a script are those of its names, each as often, in the order of the text. Each number that is
sent is the exact difference, and the client gets the same tokens in the same order. -/
theorem encode_collect (s : Script) :
    (collect s).Perm ((labels s).filterMap Label.token?) ∧
      (collect s).Pairwise (fun a b => a.line < b.line ∨ a.line = b.line ∧ a.column ≤ b.column) ∧
      (encode (collect s)).map (fun n => (n.toNat : ℤ)) = differences 0 0 (collect s) ∧
      decode (encode (collect s)) = some (collect s) := by
  refine ⟨List.mergeSort_perm _ _, collect_sorted s, ?_, decodeFrom_encodeFrom 0 0 _⟩
  refine encodeFrom_eq_differences (fun t _ => ?_) (collect_sorted s)
  by_cases h : t.line = 0
  · exact .inr ⟨h.symm, UInt32.zero_le⟩
  · exact .inl (UInt32.pos_iff_ne_zero.2 h)

end ScriptOptimizer.Semantic
