import ScriptOptimizer.Proofs.OutputNames

/-!
# Names that no other function captures

In the output a name belongs to the innermost function that declares it. The bindings of one function
have different names there. A binding that keeps its own name is never captured: a function in between
that declares it would have been met first. A numbered name is captured exactly by a function in between
that gives as many bindings of the same name a number.
-/

namespace ScriptOptimizer.Names

variable {Q : String → Prop} {n m : Names}

/-! ## Functions that declare a name -/

/-- Whether a function declares a name in the output: as a parameter, at its top, as a function or as its
own name. -/
def Declares (n : Names) (f : FuncId) (name : String) : Prop :=
  n.HasParam f name ∨ name ∈ (n.function f).pinned ∨
    (∃ b, b < n.bindings.size ∧ n.owner b = f ∧ (n.binding b).kind = .function ∧
      (n.binding b).output = name) ∨
    ((n.function f).isExpression = true ∧ (n.function f).name ≠ "" ∧ (n.function f).name = name)

/-- The innermost function that declares a name, from a function outwards. -/
inductive InnermostDeclarer (n : Names) (name : String) : FuncId → FuncId → Prop where
  | here {f : FuncId} (declares : n.Declares f name) : InnermostDeclarer n name f f
  | outward {f g h : FuncId} (skips : ¬ n.Declares f name) (parent : (n.function f).parent = some g)
    (rest : InnermostDeclarer n name g h) : InnermostDeclarer n name f h

/-- Whether a function is another one or stands around it. -/
def Encloses (n : Names) (g f : FuncId) : Prop :=
  Relation.ReflTransGen (fun f g => (n.function f).parent = some g) f g

namespace Scoped

variable (hn : n.Scoped)

variable {name : String}

include hn

theorem lt_of_parent {f g : FuncId} (h : (n.function f).parent = some g) : g < f := by
  refine hn.parent_lt (Nat.lt_of_not_le fun hge => ?_) h
  rw [n.function_of_ge hge] at h
  cases h

theorem encloses_le {f g : FuncId} (h : n.Encloses g f) : g ≤ f := by
  induction h with
  | refl => exact Nat.le_refl f
  | tail _ hp ih => exact Nat.le_trans (Nat.le_of_lt (hn.lt_of_parent hp)) ih

/-- A function around another one is the innermost that declares a name if it does and none in between
does. -/
theorem innermostDeclarer_iff {f h : FuncId} (hf : n.Encloses h f) (hh : n.Declares h name) :
    n.InnermostDeclarer name f h ↔
      ∀ g, n.Encloses g f → n.Encloses h g → g ≠ h → ¬ n.Declares g name := by
  constructor
  · intro hin g hg hgh hne
    clear hf hh
    induction hin with
    | here _ => exact absurd (Nat.le_antisymm (hn.encloses_le hg) (hn.encloses_le hgh)) hne
    | outward skips parent rest ih =>
      rcases Relation.ReflTransGen.cases_head hg with rfl | ⟨g', hp, hg'⟩
      · exact skips
      · rw [parent] at hp
        cases hp
        exact ih hg' hgh hne
  · intro hnone
    induction hf using Relation.ReflTransGen.head_induction_on with
    | refl => exact .here hh
    | head hp hrest ih =>
      have hne := Nat.ne_of_gt (Nat.lt_of_le_of_lt (hn.encloses_le hrest) (hn.lt_of_parent hp))
      refine .outward (hnone _ .refl (.head hp hrest) hne) hp (ih fun g hg => hnone g (.head hp hg))

/-- A name that a scope resolves belongs to the function of the scope, or the function does not declare it
and it is resolved where the function stands. -/
theorem resolve_outward {s : ScopeId} (hs : s < n.scopes.size) {b : BindingId} (h : n.resolve s name = some b) :
    n.owner b = (n.scope s).owner ∨ n.lookup (n.function (n.scope s).owner).scope name = none ∧
      ∃ t, t < s ∧ (n.function (n.scope s).owner).parent = some (n.scope t).owner ∧
        n.resolve t name = some b := by
  induction s using Nat.strongRecOn with
  | _ s ih =>
    have hsplit : (n.lookup s name).or ((n.scope s).outer.findSome? fun t => n.lookup t name) = some b := by
      rw [← h, resolve, chain, List.findSome?_cons]
      cases n.lookup s name <;> rfl
    cases hb : n.lookup s name with
    | some c =>
      rw [hb] at hsplit
      cases hsplit
      rw [owner, (hn.lookup_eq_some.mp hb).2.1]
      exact .inl rfl
    | none =>
      rw [hb, Option.none_or] at hsplit
      cases hblock : (n.scope s).isFunction with
      | false =>
        obtain ⟨t, ht, howner, houter⟩ := hn.block_outer hs hblock
        rw [houter] at hsplit
        rw [← howner]
        rcases ih t ht (Nat.lt_trans ht hs) hsplit with hin | ⟨hnone, u, hu, hrest⟩
        · exact .inl hin
        · exact .inr ⟨hnone, u, Nat.lt_trans hu ht, hrest⟩
      | true =>
        have hscope := (hn.isFunction_iff hs).mp hblock
        have hf := hn.owner_lt hs
        cases hp : (n.function (n.scope s).owner).parent with
        | none =>
          have houter := hn.top_outer hf hp
          rw [← hscope] at houter
          rw [houter] at hsplit
          cases hsplit
        | some g =>
          obtain ⟨t, ht, howner, houter⟩ := hn.function_outer hf hp
          rw [← hscope] at ht houter
          rw [houter] at hsplit
          exact .inr ⟨hscope ▸ hb, t, ht, howner ▸ rfl, hsplit⟩

/-- The function of a binding stands around the scopes that resolve a name to it, and no function in between
declares the name in its own scope. -/
theorem encloses_of_resolve {s : ScopeId} (hs : s < n.scopes.size) {b : BindingId}
    (h : n.resolve s name = some b) : n.Encloses (n.owner b) (n.scope s).owner ∧
      ∀ g, n.Encloses g (n.scope s).owner → n.Encloses (n.owner b) g → g ≠ n.owner b →
        n.lookup (n.function g).scope name = none := by
  induction s using Nat.strongRecOn with
  | _ s ih =>
    rcases hn.resolve_outward hs h with hin | ⟨hnone, t, ht, hp, hrest⟩
    · rw [← hin]
      exact ⟨.refl, fun g hg hgb hne =>
        absurd (Nat.le_antisymm (hn.encloses_le hg) (hn.encloses_le hgb)) hne⟩
    · obtain ⟨hencloses, hbetween⟩ := ih t ht (Nat.lt_trans ht hs) hrest
      refine ⟨.head hp hencloses, fun g hg hgb hne => ?_⟩
      rcases Relation.ReflTransGen.cases_head hg with rfl | ⟨g', hp', hg'⟩
      · exact hnone
      · rw [hp] at hp'
        cases hp'
        exact hbetween g hg' hgb hne

end Scoped

/-! ## The names of one function -/

section Named

variable (hn : n.InOrder Q n.Spells)

variable {b : BindingId}

include hn

/-- A binding that has a name in the output without a number stands in the scope of its function. -/
theorem scope_of_not_isRenamed (hb : b < n.bindings.size) (hnamed : n.isNamed b = true)
    (hrenamed : n.isRenamed b = false) : (n.binding b).scope = (n.function (n.owner b)).scope := by
  by_cases hkind : (n.binding b).isGlobal = true ∨ (n.binding b).kind = .param ∨ (n.binding b).kind = .self
  · exact hn.scope_of_kind hb hkind
  · simp only [not_or, Bool.not_eq_true] at hkind
    have hkeeps : keepsName (n.binding b) = true := by simpa [isNamed, hkind] using hnamed
    by_contra hs
    simp [isRenamed, hkeeps, hkind, hs] at hrenamed

/-- The bindings of one function that have names in the output have different ones. -/
theorem outputName_inj {c : BindingId} (hb : b < n.bindings.size) (hc : c < n.bindings.size)
    (howner : n.owner b = n.owner c) (hbn : n.isNamed b = true) (hcn : n.isNamed c = true)
    (h : n.outputName b = n.outputName c) : b = c := by
  cases hbr : n.isRenamed b with
  | false =>
    rw [outputName_of_not_isRenamed hbr] at h
    have hspelled : n.Spells (n.outputName c) := h ▸ hn.kinds.declared hb
    have hcr : n.isRenamed c = false := by
      rw [← Bool.not_eq_true]
      exact fun hcr => not_spells_outputName hcr hspelled
    refine hn.scopes.name_inj hb hc ?_ (h.trans (outputName_of_not_isRenamed hcr))
    rw [scope_of_not_isRenamed hn hb hbn hbr, scope_of_not_isRenamed hn hc hcn hcr, howner]
  | true =>
    have hcr : n.isRenamed c = true := by
      rw [← Bool.not_eq_false]
      intro hcr
      rw [outputName_of_not_isRenamed hcr] at h
      exact not_spells_outputName hbr (h ▸ hn.kinds.declared hc)
    obtain ⟨hname, hrank⟩ := (outputName_eq_iff hbr hcr).mp h
    have hf := hn.scopes.owner_lt (hn.scopes.binding_scope_lt hb)
    have hmem : b ∈ n.renamedAs (n.owner b) (n.binding b).name :=
      (hn.scopes.mem_renamedAs hf).mpr ⟨hb, rfl, hbr, rfl⟩
    rw [rank, rank, ← howner, ← hname] at hrank
    exact (List.idxOf_inj hmem).mp hrank

variable (hm : n.Named m)

include hm

omit hn in
theorem declares_iff (hs : n.Scoped) {f : FuncId} (hf : f < n.functions.size) {name : String} :
    m.Declares f name ↔ n.HasParam f name ∨
      (∃ b, b < n.bindings.size ∧ n.owner b = f ∧
        (isDeclared (n.binding b) = true ∨ (n.binding b).kind = .function) ∧ n.outputName b = name) ∨
      ((n.function f).isExpression = true ∧ (n.function f).name ≠ "" ∧ (n.function f).name = name) := by
  have hfunction {b : BindingId} (hb : b < n.bindings.size) (hk : (n.binding b).kind = .function) :
      (m.binding b).output = n.outputName b := hm.output hb (by simp [isNamed, keepsName, hk])
  unfold Declares
  rw [hm.renames.hasParam, hm.pinned hf, hm.renames.function f]
  simp only [hm.renames.bindings_size, hm.renames.owner, hm.renames.kind, List.mem_map,
    mem_declaredBindings hs]
  rw [← or_assoc (a := ∃ _, _)]
  refine or_congr_right (or_congr_left ⟨?_, ?_⟩)
  · rintro (⟨b, ⟨hb, howner, hdeclared⟩, hname⟩ | ⟨b, hb, howner, hk, hname⟩)
    · exact ⟨b, hb, howner, .inl hdeclared, hname⟩
    · exact ⟨b, hb, howner, .inr hk, hfunction hb hk ▸ hname⟩
  · rintro ⟨b, hb, howner, hdeclared | hk, hname⟩
    · exact .inl ⟨b, ⟨hb, howner, hdeclared⟩, hname⟩
    · exact .inr ⟨b, hb, howner, hk, hfunction hb hk ▸ hname⟩

/-- A function that does not declare a name of the script in its own scope does not declare it in the
output. -/
theorem not_declares_of_lookup_eq_none (hselves : ∀ {f}, f < n.functions.size → n.NamesItself f) {f : FuncId}
    (hf : f < n.functions.size) {name : String} (hname : n.Spells name)
    (h : n.lookup (n.function f).scope name = none) : ¬ m.Declares f name := by
  rw [declares_iff hm hn.scopes hf]
  have hlookup (h' : ∃ b, n.lookup (n.function f).scope name = some b) : False := by
    obtain ⟨b, hb⟩ := h'
    rw [h] at hb
    cases hb
  rintro (hparam | ⟨b, hb, rfl, hkind, rfl⟩ | ⟨hx, hne, rfl⟩)
  · exact hlookup (hn.params f name hparam)
  · have hnamed : n.isNamed b = true :=
      hkind.elim isNamed_of_isDeclared fun hk => by simp [isNamed, keepsName, hk]
    have hrenamed : n.isRenamed b = false := by
      rw [← Bool.not_eq_true]
      exact fun hr => not_spells_outputName hr hname
    refine hlookup ⟨b, hn.scopes.lookup_eq_some.mpr ⟨hb, ?_, (outputName_of_not_isRenamed hrenamed).symm⟩⟩
    exact scope_of_not_isRenamed hn hb hnamed hrenamed
  · exact hlookup ((hselves hf).2 hx hne)

/-- A numbered name is declared by the functions that give as many bindings of the name a number. -/
theorem declares_outputName_iff (hselves : ∀ {f}, f < n.functions.size → n.NamesItself f) {f : FuncId}
    (hf : f < n.functions.size) (hb : n.isRenamed b = true) :
    m.Declares f (n.outputName b) ↔ n.rank b < (n.renamedAs f (n.binding b).name).length := by
  have hspelled := not_spells_outputName hb
  have hnodup : (n.renamedAs f (n.binding b).name).Nodup := (hn.scopes.nodup_namingOrder f).filter _
  rw [declares_iff hm hn.scopes hf]
  constructor
  · rintro (hparam | ⟨c, hc, rfl, hkind, heq⟩ | ⟨-, -, heq⟩)
    · obtain ⟨c, hc⟩ := hn.params f _ hparam
      obtain ⟨hlt, -, hname⟩ := hn.scopes.lookup_eq_some.mp hc
      exact absurd (hname ▸ hn.kinds.declared hlt) hspelled
    · have hcr : n.isRenamed c = true := by
        rw [← Bool.not_eq_false]
        intro hcr
        rw [← heq, outputName_of_not_isRenamed hcr] at hspelled
        exact hspelled (hn.kinds.declared hc)
      obtain ⟨hname, hrank⟩ := (outputName_eq_iff hcr hb).mp heq
      rw [← hrank, ← hname]
      exact List.idxOf_lt_length_of_mem ((hn.scopes.mem_renamedAs hf).mpr ⟨hc, rfl, hcr, rfl⟩)
    · exact absurd (heq ▸ (hselves hf).1) hspelled
  · intro hlt
    have hmem := List.getElem_mem hlt
    obtain ⟨hc, howner, hcr, hname⟩ := (hn.scopes.mem_renamedAs hf).mp hmem
    refine .inr (.inl ⟨_, hc, howner, ?_, (outputName_eq_iff hcr hb).mpr ⟨hname, ?_⟩⟩)
    · simp only [isRenamed, keepsName, Bool.and_eq_true, Bool.or_eq_true, Bool.not_eq_true', bne_iff_ne,
        beq_iff_eq] at hcr
      by_cases hk : (n.binding (n.renamedAs f (n.binding b).name)[n.rank b]).kind = .function
      · exact .inr hk
      · exact .inl (by simp [isDeclared, hcr, hk, hcr.1.1.1.1.resolve_right hk])
    · rw [rank, howner, hname, hnodup.idxOf_getElem]

/-- A captured binding is declared by its function. -/
theorem declares_owner (hb : b < n.bindings.size) (hpinned : (n.binding b).pinned = true) :
    m.Declares (n.owner b) (n.outputName b) := by
  have hfit := hn.kinds.fits hb
  have hf : n.owner b < n.functions.size := hn.scopes.owner_lt (hn.scopes.binding_scope_lt hb)
  rw [declares_iff hm hn.scopes hf]
  cases hk : (n.binding b).kind with
  | param =>
    rw [outputName_of_not_isRenamed (by simp [isRenamed, hk])]
    exact .inl (hfit.param hk).2.1
  | self =>
    rw [outputName_of_not_isRenamed (by simp [isRenamed, hk])]
    obtain ⟨-, -, hx, hname, hne, -⟩ := hfit.self hk
    exact .inr (.inr ⟨hx, hname ▸ hne, hname.symm⟩)
  | function => exact .inr (.inl ⟨b, hb, rfl, .inr hk, rfl⟩)
  | var | lexical | constant =>
    refine .inr (.inl ⟨b, hb, rfl, .inl ?_, rfl⟩)
    simp [isDeclared, hpinned, (hfit.pinned hpinned).2, hk]

end Named

end ScriptOptimizer.Names

namespace ScriptOptimizer

open Names (InnermostDeclarer Encloses)

/-- The bindings of one function that have names in the output have different ones. Where a name means a
captured binding, the name of the binding in the output belongs to the function of the binding exactly if
the binding keeps its name or no function in between gives as many bindings of the name a number. -/
theorem Script.resolve_innermostDeclarer_iff {s r : Script} {n : Names} (h : s.resolve = .ok (r, n)) :
    (∀ b c, b < n.bindings.size → c < n.bindings.size → n.owner b = n.owner c → n.isNamed b = true →
      n.isNamed c = true → (n.binding b).output = (n.binding c).output → b = c) ∧
    ∀ scope name b, scope < n.scopes.size → n.resolve scope name = some b → (n.binding b).pinned = true →
      (n.InnermostDeclarer (n.binding b).output (n.scope scope).owner (n.owner b) ↔
        (n.isRenamed b = true → ∀ g, n.Encloses g (n.scope scope).owner → n.Encloses (n.owner b) g →
          g ≠ n.owner b → (n.renamedAs g name).length ≤ n.rank b)) := by
  obtain ⟨n₀, ⟨hn, hselves⟩, hm, -⟩ := Script.resolve_named (Q := fun _ => True) h fun _ _ _ _ => trivial
  have hscoped := hn.scopes.of_remarks hm.renames.remarks
  refine ⟨fun b c hb hc howner hbn hcn heq => ?_, fun scope name b hs hresolve hpinned => ?_⟩
  · rw [hm.renames.bindings_size] at hb hc
    rw [hm.renames.isNamed] at hbn hcn
    rw [hm.renames.owner, hm.renames.owner] at howner
    rw [hm.output hb hbn, hm.output hc hcn] at heq
    exact Names.outputName_inj hn hb hc howner hbn hcn heq
  · obtain ⟨hencloses, hbetween⟩ := hscoped.encloses_of_resolve hs hresolve
    have hname := Names.resolve_name hresolve
    have hb := hscoped.lt_of_resolve hresolve
    have hfunction (g : FuncId) (hg : n.Encloses g (n.scope scope).owner) : g < n₀.functions.size := by
      rw [← hm.renames.functions_size]
      exact Nat.lt_of_le_of_lt (hscoped.encloses_le hg) (hscoped.owner_lt hs)
    rw [hm.renames.bindings_size] at hb
    rw [hm.renames.pinned] at hpinned
    rw [hm.renames.name] at hname
    have hnamed : n₀.isNamed b = true := by simp [Names.isNamed, Names.keepsName, hpinned]
    rw [hm.output hb hnamed, hm.renames.isRenamed, hm.renames.rank, hm.renames.owner]
    rw [hm.renames.owner] at hencloses hbetween
    rw [hscoped.innermostDeclarer_iff hencloses (Names.declares_owner hn hm hb hpinned)]
    cases hrenamed : n₀.isRenamed b with
    | false =>
      refine iff_of_true (fun g hg hgb hne => ?_) (by simp)
      rw [Names.outputName_of_not_isRenamed hrenamed, hname]
      have hnone := hbetween g hg hgb hne
      rw [hm.renames.remarks.lookup, hm.renames.remarks.function_scope] at hnone
      exact Names.not_declares_of_lookup_eq_none hn hm hselves (hfunction g hg)
        (hname ▸ hn.kinds.declared hb) hnone
    | true =>
      have hiff (g : FuncId) (hg : n.Encloses g (n.scope scope).owner) :
          ¬ n.Declares g (n₀.outputName b) ↔ (n.renamedAs g name).length ≤ n₀.rank b := by
        rw [Names.declares_outputName_iff hn hm hselves (hfunction g hg) hrenamed, hname,
          hm.renames.renamedAs, Nat.not_lt]
      constructor
      · intro hnone _ g hg hgb hne
        exact (hiff g hg).mp (hnone g hg hgb hne)
      · intro hle g hg hgb hne
        exact (hiff g hg).mpr (hle rfl g hg hgb hne)

theorem Script.exists_resolve (source : String) (P : Names → Bool)
    (h : (Script.parse "" source).toOption.any (fun s => s.resolve.toOption.any (P ·.2)) = true) :
    ∃ s r n, Script.parse "" source = .ok s ∧ s.resolve = .ok (r, n) ∧ P n = true := by
  obtain ⟨s, hs, h⟩ := exists_ok h
  obtain ⟨⟨r, n⟩, hr, h⟩ := exists_ok h
  exact ⟨s, r, n, hs, hr, h⟩

/-- A function with two blocks that declare `x`, and in the second one a function that has one such block
and reads `x` outside of it. -/
def secondBlock : String :=
  "function f() \x7b \x7b let x; (function () \x7b x \x7d) \x7d
    \x7b let x; return function () \x7b \x7b let x; (function () \x7b x \x7d) \x7d x \x7d \x7d \x7d"

theorem Script.resolve_secondBlock : ∃ s r n, Script.parse "" secondBlock = .ok s ∧ s.resolve = .ok (r, n) ∧
    n.resolve 5 "x" = some 2 ∧ (n.scope 5).owner = 3 ∧ n.InnermostDeclarer "x$2" 3 1 := by
  obtain ⟨s, r, n, hs, h, hn⟩ := Script.exists_resolve secondBlock (fun n =>
    n.resolve 5 "x" = some 2 ∧ (n.scope 5).owner = 3 ∧ n.owner 2 = 1 ∧ (n.binding 2).output = "x$2" ∧
    5 < n.scopes.size ∧ (n.binding 2).pinned = true ∧ (n.function 3).parent = some 1 ∧
    (n.function 1).parent = some 0 ∧ (n.function 0).parent = none ∧
    (n.renamedAs 3 "x").length ≤ n.rank 2) (by decide +kernel)
  obtain ⟨hx, hin, howner, houtput, hscope, hpinned, h3, h1, h0, hrank⟩ := of_decide_eq_true hn
  have hiff := (Script.resolve_innermostDeclarer_iff h).2 5 "x" 2 hscope hx hpinned
  rw [hin, howner, houtput] at hiff
  refine ⟨s, r, n, hs, h, hx, hin, hiff.mpr fun _ g hg hgb hne => ?_⟩
  -- Outside of the function that reads there is the one of the binding, and outside of it the script.
  rcases Relation.ReflTransGen.cases_head hg with rfl | ⟨_, hp, hg⟩
  · exact hrank
  · rw [h3] at hp
    cases hp
    rcases Relation.ReflTransGen.cases_head hg with rfl | ⟨_, hp, hg⟩
    · exact absurd rfl hne
    · rw [h1] at hp
      cases hp
      have htop {g : FuncId} (hg : n.Encloses g 0) : 0 = g := by
        rcases Relation.ReflTransGen.cases_head hg with hg | ⟨_, hp, -⟩
        · exact hg
        · rw [h0] at hp
          cases hp
      rw [← htop hg] at hgb
      cases htop hgb

/-- A function with a block that declares `x`, and in it a function that reads `x` and has such a block of
its own. -/
def blockInEach : String :=
  "function f() \x7b \x7b let x; return function () \x7b x; \x7b let x; (function () \x7b x \x7d) \x7d \x7d \x7d \x7d"

/-- Both functions name their `x` alike, so the read in the inner one does not reach the outer one. -/
theorem Script.resolve_blockInEach : ∃ s r n, Script.parse "" blockInEach = .ok s ∧ s.resolve = .ok (r, n) ∧
    n.resolve 3 "x" = some 1 ∧ (n.binding 1).pinned = true ∧ (n.scope 3).owner = 2 ∧ n.owner 1 = 1 ∧
    ¬ n.InnermostDeclarer (n.binding 1).output 2 1 := by
  obtain ⟨s, r, n, hs, h, hn⟩ := Script.exists_resolve blockInEach (fun n =>
    n.resolve 3 "x" = some 1 ∧ (n.binding 1).pinned = true ∧ (n.scope 3).owner = 2 ∧ n.owner 1 = 1 ∧
    (n.binding 1).output ∈ (n.function 2).pinned) (by decide +kernel)
  obtain ⟨hx, hpinned, hin, howner, hdeclares⟩ := of_decide_eq_true hn
  refine ⟨s, r, n, hs, h, hx, hpinned, hin, howner, fun hinner => ?_⟩
  cases hinner with
  | outward skips => exact skips (.inr (.inl hdeclares))

end ScriptOptimizer
