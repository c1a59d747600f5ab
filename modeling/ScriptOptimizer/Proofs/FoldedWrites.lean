import ScriptOptimizer.Optimize.LiteralWrites
import ScriptOptimizer.Proofs.HeapIndependence
import ScriptOptimizer.Proofs.NumberText

/-!
# Writes that are folded into literals

A literal builds an object member by member, and a write changes the object that it has built. The main
statement compares the two: a literal with a folded write builds the object that the write leaves, with
the same properties in the same order, unless the literal gives the property several times and its last
value is another one.
-/

namespace ScriptOptimizer.IR

open Lowering

/-! ## Objects -/

/-- An object or an array: its own properties in the order in which they were added, and the length of an
array. -/
structure Instance where
  own : List (Text × Datum) := []
  length : Option Nat := none
deriving DecidableEq

/-- The property name of an element. -/
def indexKey (i : Nat) : Text := Text.ofString (toString i)

/-- The index of the element that a property name denotes; arrays have less than `2 ^ 32` elements. -/
def elementIndex? (key : Text) : Option Nat :=
  (readDigits? 10 0 (key.map Atom.shown)).filter fun i => i < 2 ^ 32 - 1 ∧ indexKey i = key

/-- The object behind the assignment of a property, where the property is an ordinary one: neither the
prototype nor the length of an array. -/
def Instance.assign? (o : Instance) (key : Text) (d : Datum) : Option Instance :=
  if key = Text.ofString "__proto__" ∨ (o.length.isSome ∧ key = Text.ofString "length") then none
  else some
    { own := setEntry key d o.own
      length := o.length.map fun n => (elementIndex? key).elim n fun i => max n (i + 1) }

/-- The property that a member of a literal gives to the object. A member named `__proto__` gives it a
prototype instead. -/
def Member.entry? (ops : Operators) (m : Memory) : Member → Option (Text × Datum)
  | named key v => if key = Text.ofString "__proto__" then none else some (key, v.eval ops m)
  | computed k v => some (ops.key (k.eval ops m), v.eval ops m)

/-- Properties with further ones set one after the other. -/
def setEntries : List (Text × Datum) → List (Text × Datum) → List (Text × Datum)
  | [], own => own
  | (k, d) :: entries, own => setEntries entries (setEntry k d own)

/-- The properties of an array. -/
def elements (ops : Operators) (m : Memory) (first : Nat) (es : List Operand) : List (Text × Datum) :=
  (es.zipIdx first).map fun (x, i) => (indexKey i, x.eval ops m)

/-- The object that a literal builds. -/
def Value.build? (ops : Operators) (m : Memory) : Value → Option Instance
  | object ms => some { own := setEntries (ms.filterMap (Member.entry? ops m)) [] }
  | array es => some { own := elements ops m 0 es, length := some es.length }
  | _ => none

/-- The value of a member with a name. -/
def Member.valueAt? (key : Text) : Member → Option Operand
  | named k v => if k = key then some v else none
  | computed .. => none

/-- The value that a literal gives to a property last, if it gives it more than one. -/
def Value.lastRepeated? (key : Text) : Value → Option Operand
  | object ms => (ms.filterMap (Member.valueAt? key)).tail.getLast?
  | _ => none

/-! ## Properties that are set again -/

section Entries

variable {k k' : Text} {d d' : Datum} {own own' entries : List (Text × Datum)}

theorem setEntry_append_of_not_mem (h : k ∉ own.map Prod.fst) :
    setEntry k d (own ++ own') = own ++ setEntry k d own' := by
  induction own with
  | nil => rfl
  | cons e own ih =>
    simp only [List.map_cons, List.mem_cons, not_or] at h
    rw [List.cons_append, setEntry, if_neg (Ne.symm h.1), ih h.2, List.cons_append]

theorem setEntry_append_of_mem (h : k ∈ own.map Prod.fst) :
    setEntry k d (own ++ own') = setEntry k d own ++ own' := by
  induction own with
  | nil => cases h
  | cons e own ih =>
    rw [List.cons_append, setEntry, setEntry]
    by_cases he : e.1 = k
    · rw [if_pos he, if_pos he, List.cons_append]
    · rw [if_neg he, if_neg he, List.cons_append, ih]
      simpa [Ne.symm he] using h

theorem mem_keys_setEntry : k ∈ (setEntry k' d own).map Prod.fst ↔ k = k' ∨ k ∈ own.map Prod.fst := by
  induction own with
  | nil => simp [setEntry]
  | cons e own ih =>
    rw [setEntry]
    by_cases he : e.1 = k'
    · simp [he]
    · rw [if_neg he, List.map_cons, List.mem_cons, ih, List.map_cons, List.mem_cons]
      exact or_left_comm

theorem setEntries_append (entries later own : List (Text × Datum)) :
    setEntries (entries ++ later) own = setEntries later (setEntries entries own) := by
  induction entries generalizing own with
  | nil => rfl
  | cons e entries ih => exact ih _

theorem mem_keys_setEntries :
    k ∈ (setEntries entries own).map Prod.fst ↔ k ∈ entries.map Prod.fst ∨ k ∈ own.map Prod.fst := by
  induction entries generalizing own with
  | nil => simp [setEntries]
  | cons e entries ih =>
    rw [setEntries, ih, mem_keys_setEntry, List.map_cons, List.mem_cons]
    exact or_left_comm.trans or_assoc.symm

/-- A property that is set again keeps its place, and the places of the others do not depend on its
value. -/
theorem exists_setEntries_eq (entries own' : List (Text × Datum)) (h : k ∉ own.map Prod.fst) :
    ∃ before after, k ∉ before.map Prod.fst ∧ ∀ d, setEntries entries (own ++ (k, d) :: own') =
      before ++ (k, ((entries.filter (·.1 = k)).getLast?.map Prod.snd).getD d) :: after := by
  induction entries generalizing own own' with
  | nil => exact ⟨own, own', h, fun _ => rfl⟩
  | cons e entries ih =>
    obtain ⟨k', d'⟩ := e
    by_cases hk : k' = k
    · subst hk
      obtain ⟨before, after, hbefore, heq⟩ := ih own' h
      refine ⟨before, after, hbefore, fun d => ?_⟩
      rw [setEntries, setEntry_append_of_not_mem h, setEntry, if_pos rfl, heq d',
        List.filter_cons_of_pos (by simp), List.getLast?_cons]
      cases (entries.filter (·.1 = k')).getLast? <;> rfl
    · rw [List.filter_cons_of_neg (by simpa using hk)]
      by_cases hmem : k' ∈ own.map Prod.fst
      · have hk' : k ∉ (setEntry k' d' own).map Prod.fst := by
          rw [mem_keys_setEntry]
          exact not_or.mpr ⟨Ne.symm hk, h⟩
        obtain ⟨before, after, hbefore, heq⟩ := ih own' hk'
        refine ⟨before, after, hbefore, fun d => ?_⟩
        rw [setEntries, setEntry_append_of_mem hmem, heq d]
      · obtain ⟨before, after, hbefore, heq⟩ := ih (setEntry k' d' own') h
        refine ⟨before, after, hbefore, fun d => ?_⟩
        rw [setEntries, setEntry_append_of_not_mem hmem, setEntry, if_neg (Ne.symm hk), heq d]

/-- A new value for the first entry of a property amounts to a write behind all entries exactly if no
later entry of the property ends up with another value. -/
theorem setEntries_replaced_iff {first later : List (Text × Datum)} (h : k ∉ first.map Prod.fst) :
    setEntries (first ++ (k, d) :: later) [] = setEntry k d (setEntries (first ++ (k, d') :: later) []) ↔
      ∀ e ∈ (later.filter (·.1 = k)).getLast?, e.2 = d := by
  have hfirst : k ∉ (setEntries first []).map Prod.fst := by simpa [mem_keys_setEntries] using h
  obtain ⟨before, after, hbefore, heq⟩ := exists_setEntries_eq later [] hfirst
  have hset (x : Datum) : setEntry k x (setEntries first []) = setEntries first [] ++ [(k, x)] := by
    nth_rewrite 1 [← List.append_nil (setEntries first [])]
    exact setEntry_append_of_not_mem hfirst
  have hsplit (x : Datum) : setEntries (first ++ (k, x) :: later) [] =
      before ++ (k, ((later.filter (·.1 = k)).getLast?.map Prod.snd).getD x) :: after := by
    rw [setEntries_append, setEntries, hset, heq]
  rw [hsplit, hsplit, setEntry_append_of_not_mem hbefore, setEntry, if_pos rfl]
  cases (later.filter (·.1 = k)).getLast? with
  | none => simp
  | some e => simp

end Entries

/-! ## Members -/

section Members

variable {key : Text} {v : Operand} {ms : List Member} {ops : Operators} {m : Memory}

theorem exists_of_plainKey? {x : Member} {k : Text} (h : LiteralWrites.plainKey? x = some k) :
    ∃ w, x = .named k w ∧ k ≠ protoKey := by
  cases x with
  | computed => cases h
  | named k' w =>
    simp only [LiteralWrites.plainKey?, Option.ite_none_left_eq_some, Option.some.injEq] at h
    exact ⟨w, by rw [h.2], h.2 ▸ h.1⟩

/-- A member is set in the place of the first one with its name, or behind the others. -/
theorem setMember_cases (key : Text) (v : Operand) (ms : List Member) :
    ((∀ x ∈ ms, LiteralWrites.plainKey? x ≠ some key) ∧
      LiteralWrites.setMember key v ms = ms ++ [.named key v]) ∨
    ∃ first w later, (∀ x ∈ first, LiteralWrites.plainKey? x ≠ some key) ∧
      ms = first ++ .named key w :: later ∧
      LiteralWrites.setMember key v ms = first ++ .named key v :: later := by
  induction ms with
  | nil => exact .inl ⟨fun _ => nofun, rfl⟩
  | cons x ms ih =>
    rw [LiteralWrites.setMember]
    by_cases hx : LiteralWrites.plainKey? x = some key
    · obtain ⟨w, rfl, -⟩ := exists_of_plainKey? hx
      exact .inr ⟨[], w, ms, fun _ => nofun, rfl, if_pos hx⟩
    · rw [if_neg hx]
      rcases ih with ⟨hall, heq⟩ | ⟨first, w, later, hall, rfl, heq⟩
      · exact .inl ⟨List.forall_mem_cons.mpr ⟨hx, hall⟩, by rw [heq, List.cons_append]⟩
      · refine .inr ⟨x :: first, w, later, List.forall_mem_cons.mpr ⟨hx, hall⟩, rfl, ?_⟩
        rw [heq, List.cons_append]

theorem valueAt?_self (key : Text) (w : Operand) : Member.valueAt? key (.named key w) = some w := if_pos rfl

/-- Plain members give the properties that they name. -/
theorem filter_entries (ops : Operators) (m : Memory) (key : Text)
    (h : ∀ x ∈ ms, (LiteralWrites.plainKey? x).isSome = true) :
    (ms.filterMap (Member.entry? ops m)).filter (·.1 = key) =
      (ms.filterMap (Member.valueAt? key)).map fun w => (key, w.eval ops m) := by
  induction ms with
  | nil => rfl
  | cons x ms ih =>
    obtain ⟨hx, hms⟩ := List.forall_mem_cons.mp h
    obtain ⟨k, hk⟩ := Option.isSome_iff_exists.mp hx
    obtain ⟨w, rfl, hne⟩ := exists_of_plainKey? hk
    have hentry : Member.entry? ops m (.named k w) = some (k, w.eval ops m) := if_neg hne
    rw [List.filterMap_cons_some hentry]
    by_cases hkey : k = key
    · subst hkey
      rw [List.filter_cons_of_pos (by simp), ih hms, List.filterMap_cons_some (valueAt?_self k w),
        List.map_cons]
    · have hvalue : Member.valueAt? key (.named k w) = none := if_neg hkey
      rw [List.filter_cons_of_neg (by simpa using hkey), ih hms, List.filterMap_cons_none hvalue]

theorem valueAt?_of_plainKey?_ne {x : Member} (hx : (LiteralWrites.plainKey? x).isSome = true)
    (h : LiteralWrites.plainKey? x ≠ some key) : Member.valueAt? key x = none := by
  obtain ⟨k, hk⟩ := Option.isSome_iff_exists.mp hx
  obtain ⟨w, rfl, -⟩ := exists_of_plainKey? hk
  rw [hk, ne_eq, Option.some.injEq] at h
  exact if_neg h

/-- Where no member has a name, the object has no such property. -/
theorem not_mem_entries (ops : Operators) (m : Memory)
    (h : ∀ x ∈ ms, (LiteralWrites.plainKey? x).isSome = true)
    (hne : ∀ x ∈ ms, LiteralWrites.plainKey? x ≠ some key) :
    ms.filterMap (Member.valueAt? key) = [] ∧
      key ∉ (ms.filterMap (Member.entry? ops m)).map Prod.fst := by
  have hvalues : ms.filterMap (Member.valueAt? key) = [] := by
    rw [List.filterMap_eq_nil_iff]
    exact fun x hx => valueAt?_of_plainKey?_ne (h x hx) (hne x hx)
  refine ⟨hvalues, fun hmem => ?_⟩
  have hnil := filter_entries ops m key h
  rw [hvalues, List.map_nil, List.filter_eq_nil_iff] at hnil
  obtain ⟨e, he, hkey⟩ := List.mem_map.mp hmem
  exact hnil e he (by simpa using hkey)

/-- An object literal with a member set, compared with the object behind a write. -/
theorem setMember_own_iff (hkey : key ≠ protoKey)
    (h : ∀ x ∈ ms, (LiteralWrites.plainKey? x).isSome = true) :
    setEntries ((LiteralWrites.setMember key v ms).filterMap (Member.entry? ops m)) [] =
        setEntry key (v.eval ops m) (setEntries (ms.filterMap (Member.entry? ops m)) []) ↔
      ∀ w ∈ (Value.object ms).lastRepeated? key, w.eval ops m = v.eval ops m := by
  have hentry (w : Operand) : Member.entry? ops m (.named key w) = some (key, w.eval ops m) := if_neg hkey
  rcases setMember_cases key v ms with ⟨hne, heq⟩ | ⟨first, w, later, hne, rfl, heq⟩
  · have hlast : (Value.object ms).lastRepeated? key = none := by
      rw [Value.lastRepeated?, (not_mem_entries ops m h hne).1]
      rfl
    rw [heq, hlast, List.filterMap_append, setEntries_append,
      List.filterMap_cons_some (hentry v), List.filterMap_nil, setEntries, setEntries]
    simp
  · obtain ⟨hfirst, hlater⟩ := List.forall_mem_append.mp h
    obtain ⟨hvalues, hkeys⟩ := not_mem_entries ops m hfirst hne
    have hlast : (Value.object (first ++ .named key w :: later)).lastRepeated? key =
        (later.filterMap (Member.valueAt? key)).getLast? := by
      rw [Value.lastRepeated?, List.filterMap_append, hvalues, List.nil_append,
        List.filterMap_cons_some (valueAt?_self key w), List.tail_cons]
    rw [heq, List.filterMap_append, List.filterMap_append, List.filterMap_cons_some (hentry v),
      List.filterMap_cons_some (hentry w), setEntries_replaced_iff hkeys, hlast,
      filter_entries ops m key (List.forall_mem_cons.mp hlater).2, List.getLast?_map]
    cases (later.filterMap (Member.valueAt? key)).getLast? <;> simp

end Members

/-! ## Elements -/

section Elements

variable {key : Text} {es : List Operand} {i j : Nat}

theorem indexKey_eq (i : Nat) : indexKey i = (Number.decimalDigits i).map Atom.char := by
  rw [indexKey, Text.ofString, Nat.toString_eq_ofList_toDigits, String.toList_ofList]
  rfl

theorem indexKey_inj : indexKey i = indexKey j ↔ i = j := by
  refine ⟨fun h => ?_, fun h => h ▸ rfl⟩
  rw [indexKey_eq, indexKey_eq] at h
  have hd := List.map_injective_iff.mpr (fun _ _ h => Atom.char.inj h) h
  have hi := Number.readDigits?_decimalDigits i
  rw [hd, Number.readDigits?_decimalDigits j] at hi
  exact (Option.some.inj hi).symm

theorem digitChar_of_isDigit {c : Char} (h : c.isDigit = true) : Nat.digitChar (c.toNat - 48) = c := by
  simp only [Char.isDigit, Bool.and_eq_true, decide_eq_true_eq, ge_iff_le] at h
  have hlow : 48 ≤ c.toNat := h.1
  have hhigh : c.toNat ≤ 57 := h.2
  have hdigit : ∀ n < 10, (Nat.digitChar n).toNat = n + 48 := by decide
  rw [← Char.toNat_inj, hdigit _ (by omega)]
  omega

/-- Digits without a leading zero are the digits of their number. -/
theorem decimalDigits_ofDigitChars {cs : List Char} (h : Number.AllDigits cs) (hne : cs ≠ [])
    (hzero : cs.head? ≠ some '0' ∨ cs.length = 1) : Number.decimalDigits (Nat.ofDigitChars 10 cs 0) = cs := by
  induction cs using List.reverseRecOn with
  | nil => exact absurd rfl hne
  | append_singleton cs c ih =>
    have hc : c.isDigit = true := h c (by simp)
    have hlt := (Number.digitValue?_of_isDigit hc).2
    rw [Nat.ofDigitChars_append, Nat.ofDigitChars_cons, Nat.ofDigitChars_nil, Number.decimalDigits]
    cases cs with
    | nil =>
      rw [Nat.ofDigitChars_nil, Nat.mul_zero, Nat.zero_add]
      exact (Nat.toDigits_of_lt_base hlt).trans (congrArg (fun d => [d]) (digitChar_of_isDigit hc))
    | cons d cs =>
      have hhead : d ≠ '0' := by simpa using hzero
      have hrest := ih (fun c hc => h c (List.mem_append_left _ hc)) (by simp) (.inl (by simpa using hhead))
      have hpos : 0 < Nat.ofDigitChars 10 (d :: cs) 0 := by
        rw [Nat.pos_iff_ne_zero]
        intro hn
        rw [hn] at hrest
        exact hhead (List.cons.inj (hrest.symm.trans (Nat.toDigits_zero 10))).1
      have happ := Nat.toDigits_append_toDigits (b := 10) (by decide) hpos hlt
      rw [Nat.toDigits_of_lt_base hlt] at happ
      exact happ.symm.trans (congr (congrArg _ hrest) (congrArg (fun d => [d]) (digitChar_of_isDigit hc)))

/-- A text that shows digits consists of them. -/
theorem eq_map_char_of_allDigits {t : Text} (h : Number.AllDigits (t.map Atom.shown)) :
    t = (t.map Atom.shown).map Atom.char := by
  induction t with
  | nil => rfl
  | cons a t ih =>
    rw [List.map_cons, List.map_cons, ← ih fun c hc => h c (List.mem_cons_of_mem _ hc)]
    cases a with
    | char c => rfl
    | stray b => exact absurd (h replacementChar List.mem_cons_self) (by decide)

/-- An index is what the name of an element says. -/
theorem eq_indexKey_of_arrayIndex? (h : arrayIndex? key = some i) : key = indexKey i ∧ i < 10 ^ 9 := by
  simp only [arrayIndex?, Text.shown, String.toList_ofList, Option.ite_none_left_eq_some, not_or, not_and,
    gt_iff_lt, not_lt, not_not, List.isEmpty_iff, List.all_eq_true] at h
  obtain ⟨⟨hlen, hzero⟩, ⟨hne, hdigits⟩, hread⟩ := h
  rw [Number.readDigits?_of_allDigits hdigits, Option.some.injEq] at hread
  have hds : Number.decimalDigits i = key.map Atom.shown := by
    rw [← hread]
    refine decimalDigits_ofDigitChars hdigits hne ?_
    by_cases h0 : (key.map Atom.shown).head? = some '0'
    · exact .inr (hzero h0)
    · exact .inl h0
  constructor
  · rw [indexKey_eq, hds]
    exact eq_map_char_of_allDigits hdigits
  · apply (Nat.length_toDigits_le_iff (by decide) (by decide)).mp
    exact (congrArg List.length hds).trans_le hlen

theorem elementIndex?_indexKey (h : i < 2 ^ 32 - 1) : elementIndex? (indexKey i) = some i := by
  have hshown : (indexKey i).map Atom.shown = Number.decimalDigits i := by
    rw [indexKey_eq, List.map_map]
    exact List.map_id _
  rw [elementIndex?, hshown, Number.readDigits?_decimalDigits, Option.filter_some, if_pos (by simpa using h)]

/-- A write to an element. -/
theorem setEntry_elements (ops : Operators) (m : Memory) (v : Operand) (first : Nat) (h : i ≤ es.length) :
    setEntry (indexKey (first + i)) (v.eval ops m) (elements ops m first es) =
      elements ops m first (setElem i v es) := by
  induction es generalizing first i with
  | nil =>
    obtain rfl : i = 0 := by simpa using h
    rfl
  | cons x es ih =>
    have hcons (y : Operand) (ys : List Operand) : elements ops m first (y :: ys) =
        (indexKey first, y.eval ops m) :: elements ops m (first + 1) ys := rfl
    cases i with
    | zero =>
      rw [hcons, Nat.add_zero, setEntry, if_pos rfl]
      rfl
    | succ i =>
      have hne : indexKey first ≠ indexKey (first + (i + 1)) := by
        rw [ne_eq, indexKey_inj]
        omega
      have helem : setElem (i + 1) v (x :: es) = x :: setElem i v es := by
        simp only [setElem, List.length_cons, Nat.add_right_cancel_iff, List.cons_append, List.set_cons_succ]
        split <;> rfl
      rw [hcons, setEntry, if_neg hne, helem, hcons, Nat.add_comm i 1, ← Nat.add_assoc,
        ih (first + 1) (by simpa using h)]

theorem indexKey_ne_length (i : Nat) : indexKey i ≠ Text.ofString "length" := by
  intro h
  rw [indexKey_eq, Text.ofString] at h
  have hd := List.map_injective_iff.mpr (fun _ _ h => Atom.char.inj h) h
  have hdigit := Number.allDigits_decimalDigits i
  rw [hd] at hdigit
  exact absurd (hdigit 'l' (by decide)) (by decide)

end Elements

/-! ## Folded writes -/

/-- A literal with a folded write builds an object, and it is the one that the write leaves, with the same
properties in the same order, exactly if the literal does not give the property several times with
another value last. -/
theorem LiteralWrites.set?_build_iff (ops : Operators) (m : Memory) {c c' : Value} {key v : Operand}
    (h : LiteralWrites.set? c key v = some c') :
    ∃ o written folded, c.build? ops m = some o ∧
      o.assign? (ops.key (key.eval ops m)) (v.eval ops m) = some written ∧
      c'.build? ops m = some folded ∧
      (folded = written ↔
        ∀ w ∈ c.lastRepeated? (ops.key (key.eval ops m)), w.eval ops m = v.eval ops m) := by
  simp only [LiteralWrites.set?, Option.bind_eq_bind, Option.bind_eq_some_iff,
    Option.ite_none_left_eq_some] at h
  obtain ⟨k, hk, hproto, h⟩ := h
  have hkey : ops.key (key.eval ops m) = k := by
    cases key with
    | literal l => exact Option.some.inj hk
    | _ => cases hk
  rw [hkey]
  cases c with
  | object ms =>
    simp only [Option.ite_none_right_eq_some, Option.some.injEq, List.all_eq_true] at h
    obtain ⟨hplain, rfl⟩ := h
    refine ⟨_, _, _, rfl, if_neg (by simpa [protoKey] using hproto), rfl, ?_⟩
    rw [Instance.mk.injEq, setMember_own_iff hproto hplain]
    simp
  | array es =>
    simp only [Option.bind_eq_some_iff] at h
    obtain ⟨i, hi, h⟩ := h
    obtain ⟨rfl, hlt⟩ := eq_indexKey_of_arrayIndex? hi
    obtain ⟨hle, rfl⟩ : i ≤ es.length ∧ Value.array (setElem i v es) = c' := by
      rw [setElem]
      split_ifs at h ⊢ <;> grind
    have hplain : ¬ (indexKey i = Text.ofString "__proto__" ∨
        ((some es.length).isSome = true ∧ indexKey i = Text.ofString "length")) :=
      not_or.mpr ⟨hproto, fun hl => indexKey_ne_length i hl.2⟩
    have hown := setEntry_elements ops m v 0 hle
    have hlength : (setElem i v es).length = max es.length (i + 1) := by
      rw [setElem]
      split_ifs <;> grind
    rw [Nat.zero_add] at hown
    refine ⟨_, _, _, rfl, if_neg hplain, rfl, iff_of_true ?_ nofun⟩
    rw [Instance.mk.injEq, elementIndex?_indexKey (by omega), hown, hlength]
    exact ⟨rfl, rfl⟩
  | _ => cases h

/-- A write in the place of a member, behind the last member of another name. -/
theorem LiteralWrites.set?_build_iff_twoMembers :
    let ops : Operators := .probing fun _ => .object 0
    let m : Memory := .uniform (.object 0) []
    let c : Value := .object [.named (Text.ofString "true") .receiver, .named (Text.ofString "a") .arguments]
    ∃ c' o folded, LiteralWrites.set? c (.literal (.bool true)) (.literal .null) = some c' ∧
      c.build? ops m = some o ∧ o.assign? (Text.ofString "true") (.primitive .null) = some folded ∧
      c'.build? ops m = some folded := by
  intro ops m c
  have hset : LiteralWrites.set? c (.literal (.bool true)) (.literal .null) = some _ := rfl
  obtain ⟨o, written, folded, ho, hwritten, hfolded, hiff⟩ := LiteralWrites.set?_build_iff ops m hset
  obtain rfl := hiff.mpr nofun
  exact ⟨_, o, folded, rfl, ho, hwritten, hfolded⟩

/-- Of two members of one name the first takes the written value, which the second overrides. -/
theorem LiteralWrites.set?_build_repeated :
    let a : Text := Text.ofString "a"
    let c : Value := .object [.named a .receiver, .named a .arguments]
    ∃ c', LiteralWrites.set? c (.literal (.string a)) (.literal .null) = some c' ∧
      ∀ ops m, m.arguments ≠ .primitive .null → ∃ o written folded, c.build? ops m = some o ∧
        o.assign? a (.primitive .null) = some written ∧ c'.build? ops m = some folded ∧
        written.own = [(a, .primitive .null)] ∧ folded.own = [(a, m.arguments)] :=
  ⟨_, rfl, fun _ _ _ => ⟨_, _, _, rfl, rfl, rfl, rfl, rfl⟩⟩

end ScriptOptimizer.IR
