import Mathlib.Data.List.Induction
import ScriptOptimizer.Proofs.InsertedSemicolons
import Std.Data.TreeMap

/-!
# Tokens by their offsets

Semicolons are inserted one by one and only at line breaks, so the offsets of the tokens still increase. An index of
the tokens by their offsets therefore leads to every token. Where a list of statements is read, it leads from each
statement to its first token and to the token that stands in front of it.
-/

namespace ScriptOptimizer

variable {u : Option Token} {ts l s front : List Token}

namespace Scan

/-! ## What is kept -/

theorem Inserted.sublist (h : Inserted u l ts) : l.Sublist ts := by
  induction h with
  | nil => exact .slnil
  | keep _ _ ih => exact ih.cons_cons _
  | semicolon _ _ _ ih => exact (ih.cons_cons _).cons _

/-- The tokens that are not inserted are those of the source. -/
theorem Inserted.filter_mem (h : Inserted u l ts) (hts : ts.Nodup) : ts.filter (· ∈ l) = l := by
  have hsublist := h.sublist
  clear h
  induction hsublist with
  | slnil => rfl
  | @cons l ts t hl ih =>
    obtain ⟨ht, hts⟩ := List.nodup_cons.mp hts
    rw [List.filter_cons_of_neg (by simpa using mt (hl.subset ·) ht), ih hts]
  | @cons_cons l ts t _ ih =>
    obtain ⟨ht, hts⟩ := List.nodup_cons.mp hts
    rw [List.filter_cons_of_pos (by simp), List.cons_inj_right]
    refine (List.filter_congr fun w hw => ?_).trans (ih hts)
    simp [ne_of_mem_of_not_mem hw ht]

theorem Inserted.isPunct_of_notMem {w : Token} (h : Inserted u l ts) (hw : w ∈ ts) (hl : w ∉ l) :
    w.isPunct ";" = true := by
  obtain ⟨s, s', hts⟩ := List.append_of_mem hw
  obtain ⟨x, -, rfl, -⟩ := (h.mem_or_semicolon hts).resolve_left hl
  simp [Token.isPunct, semicolonAfter]

/-! ## The index -/

/-- The numbers of tokens by their offsets. A later token hides an earlier one at its offset. -/
def index (ts : List Token) : Std.TreeMap Nat Nat :=
  ts.zipIdx.foldl (fun found x => found.insert x.1.pos.offset x.2) ∅

theorem index_concat (ts : List Token) (t : Token) :
    index (ts ++ [t]) = (index ts).insert t.pos.offset ts.length := by
  simp [index, List.zipIdx_append]

/-- The index leads to every token, and to nothing else, if the offsets increase. -/
theorem index_eq_some_iff (h : ts.Pairwise fun v w => v.pos.offset < w.pos.offset) {o k : Nat} :
    (index ts)[o]? = some k ↔ ∃ t, ts[k]? = some t ∧ t.pos.offset = o := by
  induction ts using List.reverseRecOn with
  | nil => simp [index]
  | append_singleton ts t ih =>
    obtain ⟨hts, -, hlast⟩ := List.pairwise_append.mp h
    have hne {w : Token} {n : Nat} (hw : ts[n]? = some w) : w.pos.offset ≠ t.pos.offset :=
      Nat.ne_of_lt (hlast w (List.mem_of_getElem? hw) t List.mem_cons_self)
    have hconcat (w : Token) : (ts ++ [t])[k]? = some w ↔ ts[k]? = some w ∨ k = ts.length ∧ t = w := by
      grind
    simp only [hconcat]
    rw [index_concat, Std.TreeMap.getElem?_insert]
    split
    · next ho =>
      rw [← compare_eq_iff_eq.mp ho]
      constructor
      · rintro ⟨⟩
        exact ⟨t, .inr ⟨rfl, rfl⟩, rfl⟩
      · rintro ⟨w, hw | ⟨rfl, -⟩, ho⟩
        · exact absurd ho (hne hw)
        · rfl
    · next ho =>
      rw [ih hts]
      refine exists_congr fun w => and_congr_left fun hw => ⟨.inl, ?_⟩
      rintro (h | ⟨-, rfl⟩)
      · exact h
      · exact absurd (compare_eq_iff_eq.mpr hw) ho

end Scan

/-! ## Statements in the index -/

/-- The token in front of what follows two runs of tokens. -/
theorem Token.after_getLast? (front s : List Token) : after front.getLast? s = (front ++ s).getLast? := by
  induction s generalizing front with
  | nil => rw [List.append_nil, after]
  | cons t s ih =>
    have h := ih (front ++ [t])
    rw [List.getLast?_concat, List.append_assoc] at h
    exact h

namespace Grammar

/-- The tokens to compare for a statement at a position: the token in front of it, and the one at its offset. -/
def compared (ts : List Token) (pos : Position) : Option (Option Token × Token) := do
  let k ← (Scan.index ts)[pos.offset]?
  let first ← ts[k]?
  return (if k = 0 then none else ts[k - 1]?, first)

theorem compared_eq {t : Token} {back : List Token} (hts : ts = front ++ t :: back)
    (h : ts.Pairwise fun v w => v.pos.offset < w.pos.offset) : compared ts t.pos = some (front.getLast?, t) := by
  have hfirst : ts[front.length]? = some t := by simp [hts]
  rw [compared, (Scan.index_eq_some_iff h).mpr ⟨t, hfirst, rfl⟩]
  show (ts[front.length]? >>= fun first => some (if front.length = 0 then none else ts[front.length - 1]?, first)) = _
  rw [hfirst, List.getLast?_eq_getElem?]
  show some (_, t) = _
  split
  · next h0 => simp [List.eq_nil_of_length_eq_zero h0]
  · next h0 => rw [hts, List.getElem?_append_left (Nat.sub_one_lt h0)]

open Matcher

/-- The statements of a list know the tokens around their starts. -/
theorem exists_front {bad : Position} {is is' : List Item} (h : Tracks.Each (ItemRead bad) u s is is') :
    ∀ i ∈ is, ∃ s1 s2, s = s1 ++ i.first :: s2 ∧ i.before = Token.after u s1 ∧ i.first.pos = i.stmt.value.pos := by
  induction h with
  | nil => simp
  | @cons u s s' i i' is is' h _ ih =>
    refine List.forall_mem_cons.mpr ⟨?_, fun j hj => ?_⟩
    · obtain ⟨hstmt, ⟨hbefore, hfirst⟩, -⟩ := h
      obtain ⟨s2, rfl⟩ := List.head?_eq_some_iff.mp hfirst
      exact ⟨[], s2 ++ s', rfl, hbefore, hstmt.2 _ rfl⟩
    · obtain ⟨s1, s2, rfl, hbefore, hpos⟩ := ih j hj
      exact ⟨s ++ s1, s2, (List.append_assoc ..).symm, hbefore.trans (Token.after_append ..).symm, hpos⟩

/-- A statement stands in tokens, and its place in the index leads to the tokens around its start. -/
structure Item.Found (ts : List Token) (i : Item) : Prop where
  stands : ∃ front back, ts = front ++ i.first :: back ∧ i.before = front.getLast?
  compared_eq : compared ts i.stmt.value.pos = some (i.before, i.first)

/-- Wherever a list of statements is read in tokens whose offsets increase, the statements are found there. -/
theorem found_of_many (hlexed : ∀ t ∈ ts, t.Lexed) (hts : ts.Pairwise fun v w => v.pos.offset < w.pos.offset)
    {depth : Nat} {c d : Context} {is : List Item} (hc : ts = front ++ c.rest) (hbefore : c.before = front.getLast?)
    (h : many (statementItem (rules depth)) c = (.matched is, d)) : ∀ i ∈ is, i.Found ts := by
  have hrest : ∀ t ∈ c.rest, t.Lexed := fun t ht => hlexed t (hc ▸ List.mem_append_right _ ht)
  have hsame : Option.Rel Token.Same c.before c.before := by
    cases c.before with
    | none => exact .none
    | some v => exact .some ⟨rfl, rfl⟩
  have hgoes := Tracks.many (fun _ => tracks_statementItem (agree_rules default depth))
    (⟨.refl hrest, hsame, rfl⟩ : Follows default c c) rfl
  rw [h] at hgoes
  cases hgoes with
  | matched s _ hr _ hitems =>
    intro i hi
    obtain ⟨s1, s2, rfl, hi, hpos⟩ := exists_front hitems i hi
    have hsplit : ts = (front ++ s1) ++ i.first :: (s2 ++ d.rest) := by simp [hc, hr]
    rw [hbefore, Token.after_getLast?] at hi
    refine ⟨⟨_, _, hsplit, hi⟩, ?_⟩
    rw [← hpos, hi]
    exact Grammar.compared_eq hsplit hts

end Grammar

/-! ## Sources -/

namespace Scan

/-- What insertion makes of the tokens `l` of a source. -/
structure Isolated (l ts : List Token) : Prop where
  /-- At most one semicolon comes between two tokens, and only where the second one starts on a later line. -/
  inserted : Inserted none l ts
  /-- Without what is inserted, the tokens are those of the source. -/
  kept : ts.filter (· ∈ l) = l
  semicolon (w : Token) (hw : w ∈ ts) (hl : w ∉ l) : w.isPunct ";" = true
  increasing : ts.Pairwise fun v w => v.pos.offset < w.pos.offset
  /-- The index has every token, each under its own offset. -/
  indexed (o k : Nat) : (index ts)[o]? = some k ↔ ∃ t, ts[k]? = some t ∧ t.pos.offset = o
  /-- Wherever a list of statements is read, the first token of each statement is compared with the token that
  stands in front of it. -/
  found (depth : Nat) (c d : Context) (front : List Token) (is : List Grammar.Item) (hc : ts = front ++ c.rest)
    (hbefore : c.before = front.getLast?)
    (h : Matcher.many (Grammar.statementItem (Grammar.rules depth)) c = (.matched is, d)) : ∀ i ∈ is, i.Found ts

/-- Insertion adds isolated semicolons to the tokens of a source, so that tokens are found by their offsets. -/
theorem scan_isolated {file source : String} (h : scan file source = .ok ts) :
    ∃ all, Lexer.tokens file source = .ok all ∧ Isolated (significant all) ts := by
  cases hall : Lexer.tokens file source with
  | error e => simp [scan, hall, bind, Except.bind] at h
  | ok all =>
    have hinsert : insert none (significant all) = .ok ts := by
      simpa [scan, hall, bind, Except.bind, significant] using h
    have hinserted := inserted_of_insert hinsert
    have hlexes := Lexer.tokens_eq_ok.mp hall
    have hincreasing := (hinserted.pairwise (hlexes.pairwise_before.1.filter _)).1
    have hlexed := ((Token.Ended.of_lexes hlexes).filter.insert hinsert).lexed
    have hnodup : ts.Nodup := hincreasing.imp fun {v w} hlt heq => by simp [heq] at hlt
    exact ⟨all, rfl, hinserted, hinserted.filter_mem hnodup, fun w => hinserted.isPunct_of_notMem, hincreasing,
      fun o k => index_eq_some_iff hincreasing, fun _ _ _ _ _ => Grammar.found_of_many hlexed hincreasing⟩

/-- Both rules of insertion behind one another: a word ends a statement, and so does an operand in front of an update
operator. -/
theorem scan_isolated_bothRules : ∃ all ts, Lexer.tokens "" "\x7b break\na\n++b \x7d" = .ok all ∧
    scan "" "\x7b break\na\n++b \x7d" = .ok ts ∧ ts.map Token.text = ["\x7b", "break", ";", "a", ";", "++", "b", "\x7d", ""] ∧
    Isolated (significant all) ts := by
  obtain ⟨ts, hts, htexts⟩ := exists_ok (x := scan "" "\x7b break\na\n++b \x7d")
    (P := fun ts => ts.map Token.text = ["\x7b", "break", ";", "a", ";", "++", "b", "\x7d", ""]) (by decide +kernel)
  obtain ⟨all, hall, hisolated⟩ := scan_isolated hts
  exact ⟨all, ts, hall, hts, of_decide_eq_true htexts, hisolated⟩

end Scan

end ScriptOptimizer
