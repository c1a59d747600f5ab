import ScriptOptimizer.Proofs.NumberedNames
import ScriptOptimizer.Proofs.ResolvedScripts

/-!
# Choosing the names of the output

Which name a binding gets does not depend on the course of the choice. A binding that a block declares, or
that a parameter hides, gets a numbered name: the number says how many bindings of its function and its
name got one before. The others keep their name. The choice goes through the functions, and in each of
them through the bindings; a step names one binding, and the names claimed so far are those of the
bindings named so far.
-/

namespace ScriptOptimizer.Names

variable {Q : String → Prop} {n m m' : Names}

/-! ## Names that differ in their output -/

/-- Names that differ only in the names chosen for the output. -/
structure Renames (n m : Names) : Prop where
  scopes : m.scopes = n.scopes
  reserved : m.reserved = n.reserved
  bindings_size : m.bindings.size = n.bindings.size
  functions_size : m.functions.size = n.functions.size
  binding : ∀ b, m.binding b = { n.binding b with output := (m.binding b).output }
  function : ∀ f, m.function f = { n.function f with pinned := (m.function f).pinned }

namespace Renames

theorem refl (n : Names) : n.Renames n := ⟨rfl, rfl, rfl, rfl, fun _ => rfl, fun _ => rfl⟩

theorem trans (h : n.Renames m) (k : m.Renames m') : n.Renames m' where
  scopes := k.scopes.trans h.scopes
  reserved := k.reserved.trans h.reserved
  bindings_size := k.bindings_size.trans h.bindings_size
  functions_size := k.functions_size.trans h.functions_size
  binding b := by
    rw [k.binding b, h.binding b]
  function f := by
    rw [k.function f, h.function f]

theorem setOutput (n : Names) (b : BindingId) (output : String) : n.Renames (n.setOutput b output) where
  scopes := rfl
  reserved := rfl
  bindings_size := n.bindings_size_modifyBinding b _
  functions_size := rfl
  binding c := by
    rw [Names.setOutput, binding_modifyBinding]
    split <;> rfl
  function _ := rfl

theorem setPinned (n : Names) (f : FuncId) (pinned : List String) :
    n.Renames (n.modifyFunction f fun x => { x with pinned }) where
  scopes := rfl
  reserved := rfl
  bindings_size := rfl
  functions_size := n.functions_size_modifyFunction f _
  binding _ := rfl
  function g := by
    rw [function_modifyFunction]
    split <;> rfl

variable (h : n.Renames m)

include h

theorem name (b : BindingId) : (m.binding b).name = (n.binding b).name := by rw [h.binding]

theorem kind (b : BindingId) : (m.binding b).kind = (n.binding b).kind := by rw [h.binding]

theorem isGlobal (b : BindingId) : (m.binding b).isGlobal = (n.binding b).isGlobal := by rw [h.binding]

theorem pinned (b : BindingId) : (m.binding b).pinned = (n.binding b).pinned := by rw [h.binding]

theorem remarks : n.Remarks m where
  scopes := h.scopes
  bindings_size := h.bindings_size
  functions_size := h.functions_size
  name := h.name
  scope_eq b := by rw [h.binding]
  parent f := by rw [h.function]
  function_scope f := by rw [h.function]

theorem owner (b : BindingId) : m.owner b = n.owner b := by
  rw [Names.owner, h.remarks.scope_eq, h.remarks.scope]
  rfl

theorem scopesOf (f : FuncId) : m.scopesOf f = n.scopesOf f := by
  simp only [Names.scopesOf, h.scopes, h.remarks.scope]

theorem hasParam (f : FuncId) (name : String) : m.HasParam f name ↔ n.HasParam f name :=
  hasParam_of_params (by rw [h.function]) name

theorem keepsName (b : BindingId) : keepsName (m.binding b) = keepsName (n.binding b) := by
  rw [Names.keepsName, h.pinned, h.kind]
  rfl

theorem isDeclared (b : BindingId) : isDeclared (m.binding b) = isDeclared (n.binding b) := by
  simp only [Names.isDeclared, h.pinned, h.kind, h.isGlobal]

end Renames

/-! ## The name of a binding -/

variable (n)

/-- Whether a binding has a name in the output. -/
def isNamed (b : BindingId) : Bool :=
  let x := n.binding b
  keepsName x || x.isGlobal || x.kind == .param || x.kind == .self

/-- Whether a binding gets a numbered name: a block declares it, or its function has a parameter of the
same name. -/
def isRenamed (b : BindingId) : Bool :=
  let x := n.binding b
  let f := n.function (n.owner b)
  keepsName x && !x.isGlobal && x.kind != .param && x.kind != .self &&
    (x.scope != f.scope || f.params.any fun p => p.name == x.name)

def blockBindings (f : FuncId) : List BindingId :=
  ((n.scopesOf f).filter (· ≠ (n.function f).scope)).flatMap fun s => (n.scope s).bindings

/-- The bindings of a function in the order in which they get their names. -/
def namingOrder (f : FuncId) : List BindingId :=
  (n.scope (n.function f).scope).bindings ++ n.blockBindings f

/-- The bindings of a function and a name that get numbered names, in their order. -/
def renamedAs (f : FuncId) (name : String) : List BindingId :=
  (n.namingOrder f).filter fun b => n.isRenamed b && (n.binding b).name == name

/-- How many bindings of the same function and name get a numbered name before a binding does. -/
def rank (b : BindingId) : Nat := (n.renamedAs (n.owner b) (n.binding b).name).idxOf b

/-- The name that a binding gets in the output. -/
noncomputable def outputName (b : BindingId) : String :=
  let x := n.binding b
  if n.isRenamed b then numbered x.name (freeNumber n.reserved x.name (n.rank b) + 1) else x.name

/-- The captured bindings that a function declares at its top. -/
def declaredBindings (f : FuncId) : List BindingId :=
  ((n.scopesOf f).flatMap fun s => (n.scope s).bindings).filter fun b => isDeclared (n.binding b)

variable {n}

namespace Renames

variable (h : n.Renames m)

include h

theorem isNamed (b : BindingId) : m.isNamed b = n.isNamed b := by
  simp only [Names.isNamed, h.keepsName, h.isGlobal, h.kind]

theorem isRenamed (b : BindingId) : m.isRenamed b = n.isRenamed b := by
  have hparams (f : FuncId) : (m.function f).params = (n.function f).params := by rw [h.function]
  simp only [Names.isRenamed, h.keepsName, h.isGlobal, h.kind, h.name, h.owner, h.remarks.scope_eq,
    h.remarks.function_scope, hparams]

theorem namingOrder (f : FuncId) : m.namingOrder f = n.namingOrder f := by
  simp only [Names.namingOrder, Names.blockBindings, h.scopesOf, h.remarks.scope, h.remarks.function_scope]

theorem renamedAs (f : FuncId) (name : String) : m.renamedAs f name = n.renamedAs f name := by
  simp only [Names.renamedAs, h.namingOrder, h.isRenamed, h.name]

theorem rank (b : BindingId) : m.rank b = n.rank b := by
  simp only [Names.rank, h.renamedAs, h.owner, h.name]

theorem declaredBindings (f : FuncId) : m.declaredBindings f = n.declaredBindings f := by
  simp only [Names.declaredBindings, h.scopesOf, h.remarks.scope, h.isDeclared]

end Renames

theorem outputName_of_isRenamed {b : BindingId} (h : n.isRenamed b = true) :
    n.outputName b = numbered (n.binding b).name
      (freeNumber n.reserved (n.binding b).name (n.rank b) + 1) := if_pos h

theorem outputName_of_not_isRenamed {b : BindingId} (h : n.isRenamed b = false) :
    n.outputName b = (n.binding b).name := if_neg (by simp [h])

/-- A numbered name that was chosen is not spelled in the script. -/
theorem not_spells_freeNumber (name : String) (i : Nat) :
    ¬ n.Spells (numbered name (freeNumber n.reserved name i + 1)) := by
  rintro (h | h)
  · exact numbered_ne_empty _ _ h
  · exact freeNumber_not_mem name n.reserved i h

theorem not_spells_outputName {b : BindingId} (h : n.isRenamed b = true) : ¬ n.Spells (n.outputName b) := by
  rw [outputName_of_isRenamed h]
  exact not_spells_freeNumber _ _

/-- Two numbered names are the same only for one name and one rank. -/
theorem outputName_eq_iff {b c : BindingId} (hb : n.isRenamed b = true) (hc : n.isRenamed c = true) :
    n.outputName b = n.outputName c ↔ (n.binding b).name = (n.binding c).name ∧ n.rank b = n.rank c := by
  rw [outputName_of_isRenamed hb, outputName_of_isRenamed hc]
  constructor
  · intro h
    obtain ⟨hname, hnumber⟩ := numbered_inj h
    refine ⟨hname, ?_⟩
    rw [hname] at hnumber
    exact freeNumber_inj _ (Nat.succ.inj hnumber)
  · rintro ⟨hname, hrank⟩
    rw [hname, hrank]

/-! ## The order of the choice -/

namespace Scoped

variable (hn : n.Scoped)

include hn

theorem mem_namingOrder {f : FuncId} (hf : f < n.functions.size) {b : BindingId} :
    b ∈ n.namingOrder f ↔ b < n.bindings.size ∧ n.owner b = f := by
  simp only [namingOrder, blockBindings, scopesOf, List.mem_append, List.mem_flatMap, List.mem_filter,
    List.mem_range, hn.mem_bindings, decide_eq_true_eq, beq_iff_eq, owner]
  constructor
  · rintro (⟨hb, hs⟩ | ⟨s, ⟨⟨-, hs⟩, -⟩, hb, rfl⟩)
    · exact ⟨hb, hs ▸ hn.owner_scope hf⟩
    · exact ⟨hb, hs⟩
  · rintro ⟨hb, ho⟩
    by_cases hs : (n.binding b).scope = (n.function f).scope
    · exact .inl ⟨hb, hs⟩
    · exact .inr ⟨_, ⟨⟨hn.binding_scope_lt hb, ho⟩, hs⟩, hb, rfl⟩

theorem scope_of_mem_blockBindings {f : FuncId} {b : BindingId} (h : b ∈ n.blockBindings f) :
    (n.binding b).scope ≠ (n.function f).scope := by
  simp only [blockBindings, List.mem_flatMap, List.mem_filter, hn.mem_bindings, decide_eq_true_eq] at h
  obtain ⟨s, ⟨-, hs⟩, -, rfl⟩ := h
  exact hs

theorem nodup_namingOrder (f : FuncId) : (n.namingOrder f).Nodup := by
  refine List.Nodup.append (hn.nodup _) ?_ fun b hb hb' =>
    hn.scope_of_mem_blockBindings hb' (hn.mem_bindings.mp hb).2
  refine List.nodup_flatMap.mpr ⟨fun s _ => hn.nodup s, ?_⟩
  refine List.Pairwise.imp ?_ ((List.nodup_range.filter _).filter _)
  intro s t hst b hb hb'
  exact hst ((hn.mem_bindings.mp hb).2.symm.trans (hn.mem_bindings.mp hb').2)

theorem mem_renamedAs {f : FuncId} (hf : f < n.functions.size) {b : BindingId} {name : String} :
    b ∈ n.renamedAs f name ↔
      b < n.bindings.size ∧ n.owner b = f ∧ n.isRenamed b = true ∧ (n.binding b).name = name := by
  simp only [renamedAs, List.mem_filter, hn.mem_namingOrder hf, Bool.and_eq_true, beq_iff_eq, and_assoc]

end Scoped

/-- The bindings of a name that are named before a binding have the ranks below its own. -/
theorem rank_lt_iff {f : FuncId} {b : BindingId} {before after : List BindingId}
    (hnodup : (n.namingOrder f).Nodup) (howner : ∀ c, c ∈ n.namingOrder f → n.owner c = f)
    (horder : n.namingOrder f = before ++ b :: after) (hb : n.isRenamed b = true) (i : Nat) :
    (∃ c, c ∈ before ∧ n.isRenamed c = true ∧ (n.binding c).name = (n.binding b).name ∧ n.rank c = i) ↔
      i < n.rank b := by
  let p := fun c => n.isRenamed c && (n.binding c).name == (n.binding b).name
  have hp : p b = true := by simp [p, hb]
  have hlist : n.renamedAs f (n.binding b).name = before.filter p ++ b :: after.filter p := by
    rw [renamedAs, horder, List.filter_append, List.filter_cons_of_pos (p := p) hp]
  have hlist_nodup : (before.filter p ++ b :: after.filter p).Nodup := hlist ▸ hnodup.filter _
  have hnot : b ∉ before.filter p := fun hmem =>
    (List.nodup_append.mp hlist_nodup).2.2 b hmem b List.mem_cons_self rfl
  have hmem_order (c : BindingId) (hc : c ∈ before) : n.owner c = f :=
    howner c (horder ▸ List.mem_append_left _ hc)
  have hrank_b : n.rank b = (before.filter p).length := by
    rw [rank, howner b (horder ▸ List.mem_append_cons_self), hlist,
      List.idxOf_append_of_notMem hnot, List.idxOf_cons_self]
    simp
  have hrank (c : BindingId) (hc : c ∈ before.filter p) : n.rank c = (before.filter p).idxOf c := by
    obtain ⟨hmem, hpc⟩ := List.mem_filter.mp hc
    have hname : (n.binding c).name = (n.binding b).name := by simpa [p] using (Bool.and_eq_true_iff.mp hpc).2
    rw [rank, hmem_order c hmem, hname, hlist, List.idxOf_append_of_mem hc]
  rw [hrank_b]
  constructor
  · rintro ⟨c, hc, hrenamed, hname, rfl⟩
    have hmem : c ∈ before.filter p := List.mem_filter.mpr ⟨hc, by simp [p, hrenamed, hname]⟩
    rw [hrank c hmem]
    exact List.idxOf_lt_length_of_mem hmem
  · intro hi
    have hmem := List.getElem_mem hi
    obtain ⟨hc, hpc⟩ := List.mem_filter.mp hmem
    simp only [p, Bool.and_eq_true, beq_iff_eq] at hpc
    refine ⟨_, hc, hpc.1, hpc.2, ?_⟩
    rw [hrank _ hmem]
    exact (List.nodup_append.mp hlist_nodup).1.idxOf_getElem i hi

/-! ## Naming one binding -/

/-- Where the scope of a function is, for the kinds of bindings that only such a scope has. -/
theorem InOrder.scope_of_kind {R : String → Prop} (hn : n.InOrder Q R) {b : BindingId} (hb : b < n.bindings.size)
    (h : (n.binding b).isGlobal = true ∨ (n.binding b).kind = .param ∨ (n.binding b).kind = .self) :
    (n.binding b).scope = (n.function (n.owner b)).scope := by
  have hfit := hn.kinds.fits hb
  rcases h with hglobal | hparam | hself
  · have hs := hn.scopes.binding_scope_lt hb
    have hzero := (hfit.global hglobal).1
    refine (hn.scopes.isFunction_iff hs).mp ?_
    by_contra hblock
    obtain ⟨t, ht, -⟩ := hn.scopes.block_outer hs (by simpa using hblock)
    exact Nat.not_lt_zero t (hzero ▸ ht)
  · exact (hfit.param hparam).1
  · exact (hfit.self hself).1

theorem any_params (n : Names) (f : FuncId) (name : String) :
    (n.function f).params.any (fun p => p.name == name) = true ↔ n.HasParam f name := by
  simp [HasParam, List.any_eq_true]

/-- The course of the choice in a function: some of its bindings are named, and the claimed names that the
script does not spell are theirs. -/
structure Naming (n start : Names) (done : List BindingId) (claimed : NameSet) (m : Names) : Prop where
  renames : n.Renames m
  functions : m.functions = start.functions
  output : ∀ b, b ∈ done → n.isNamed b = true → (m.binding b).output = n.outputName b
  others : ∀ b, b ∉ done → m.binding b = start.binding b
  claims : ∀ name, ¬ n.Spells name →
    (name ∈ claimed ↔ ∃ b, b ∈ done ∧ n.isRenamed b = true ∧ name = n.outputName b)

/-- The names of the script that are claimed while the bindings of a function's own scope are named. -/
structure OwnClaims (n : Names) (f : FuncId) (done : List BindingId) (claimed : NameSet) : Prop where
  params : ∀ name, n.HasParam f name → name ∈ claimed
  own : ∀ name, n.Spells name → name ∈ claimed → n.HasParam f name ∨
    ∃ b, b ∈ done ∧ (n.binding b).kind ≠ .self ∧ (n.binding b).name = name

section Step

variable {start : Names} {f : FuncId} {b : BindingId} {before after : List BindingId} {claimed : NameSet}

theorem mem_insert_name {name x : String} : x ∈ claimed.insert name ↔ x = name ∨ x ∈ claimed := by
  simp [Std.TreeSet.mem_insert, @eq_comm _ x]

/-- A claimed name that the script spells is not one of those chosen. -/
theorem Naming.insert (h : n.Naming start before claimed m) {name : String} (hname : n.Spells name) :
    n.Naming start before (claimed.insert name) m := by
  refine { h with claims := fun x hx => ?_ }
  have hne : x ≠ name := fun heq => hx (heq ▸ hname)
  rw [mem_insert_name, ← h.claims x hx, or_iff_right hne]

/-- A binding for which no numbered name is chosen stays as it is. -/
theorem Naming.skip (h : n.Naming start before claimed m) (hb : n.isRenamed b = false)
    (houtput : n.isNamed b = true → (m.binding b).output = n.outputName b) :
    n.Naming start (before ++ [b]) claimed m := by
  refine ⟨h.renames, h.functions, fun c hc hnamed => ?_, fun c hc => ?_, fun x hx => ?_⟩
  · rcases List.mem_append.mp hc with hc | hc
    · exact h.output c hc hnamed
    · rw [List.mem_singleton.mp hc] at hnamed ⊢
      exact houtput hnamed
  · exact h.others c fun hmem => hc (List.mem_append_left _ hmem)
  · rw [h.claims x hx]
    constructor
    · rintro ⟨c, hc, hrest⟩
      exact ⟨c, List.mem_append_left _ hc, hrest⟩
    · rintro ⟨c, hc, hrenamed, hrest⟩
      rcases List.mem_append.mp hc with hc | hc
      · exact ⟨c, hc, hrenamed, hrest⟩
      · rw [List.mem_singleton.mp hc, hb] at hrenamed
        cases hrenamed

theorem binding_setOutput (m : Names) (hb : b < m.bindings.size) (output : String) (c : BindingId) :
    (m.setOutput b output).binding c =
      if c = b then { m.binding c with output } else m.binding c := by
  rw [setOutput, binding_modifyBinding]
  simp [hb]

/-- A binding gets its name, which is claimed. -/
theorem Naming.setOutput (h : n.Naming start before claimed m) (hb : b < n.bindings.size)
    (hspelled : n.isRenamed b = false → n.Spells (n.outputName b)) :
    n.Naming start (before ++ [b]) (claimed.insert (n.outputName b)) (m.setOutput b (n.outputName b)) := by
  have hbinding := m.binding_setOutput (h.renames.bindings_size.symm ▸ hb) (n.outputName b)
  refine ⟨h.renames.trans (.setOutput m b _), h.functions, fun c hc hnamed => ?_, fun c hc => ?_, fun x hx => ?_⟩
  · rw [hbinding]
    split
    · next hcb => rw [hcb]
    · next hcb =>
      rcases List.mem_append.mp hc with hc | hc
      · exact h.output c hc hnamed
      · exact absurd (List.mem_singleton.mp hc) hcb
  · rw [hbinding, if_neg fun hcb => hc (List.mem_append_right _ (List.mem_singleton.mpr hcb))]
    exact h.others c fun hmem => hc (List.mem_append_left _ hmem)
  · rw [mem_insert_name, h.claims x hx]
    constructor
    · rintro (rfl | ⟨c, hc, hrest⟩)
      · refine ⟨b, List.mem_append_cons_self, ?_, rfl⟩
        by_contra hrenamed
        exact hx (hspelled (by simpa using hrenamed))
      · exact ⟨c, List.mem_append_left _ hc, hrest⟩
    · rintro ⟨c, hc, hrenamed, rfl⟩
      rcases List.mem_append.mp hc with hc | hc
      · exact .inr ⟨c, hc, hrenamed, rfl⟩
      · exact .inl (by rw [List.mem_singleton.mp hc])

theorem OwnClaims.skip (h : n.OwnClaims f before claimed) (b : BindingId) :
    n.OwnClaims f (before ++ [b]) claimed where
  params := h.params
  own x hx hmem := (h.own x hx hmem).imp_right fun ⟨c, hc, hrest⟩ => ⟨c, List.mem_append_left _ hc, hrest⟩

/-- The output name of a binding is claimed: one that the script spells is its own. -/
theorem OwnClaims.insert (h : n.OwnClaims f before claimed) (hself : (n.binding b).kind ≠ .self)
    {name : String} (hname : n.Spells name → name = (n.binding b).name) :
    n.OwnClaims f (before ++ [b]) (claimed.insert name) where
  params x hx := mem_insert_name.mpr (.inr (h.params x hx))
  own x hx hmem := by
    rcases mem_insert_name.mp hmem with rfl | hmem
    · exact .inr ⟨b, List.mem_append_cons_self, hself, (hname hx).symm⟩
    · exact (h.skip b).own x hx hmem

theorem eq_of_spells_outputName (h : n.Spells (n.outputName b)) : n.outputName b = (n.binding b).name := by
  cases hb : n.isRenamed b with
  | true => exact absurd h (not_spells_outputName hb)
  | false => exact outputName_of_not_isRenamed hb

variable (hn : n.InOrder Q n.Spells) (hf : f < n.functions.size)
  (horder : n.namingOrder f = before ++ b :: after)

include hn hf horder

theorem lt_of_order : b < n.bindings.size ∧ n.owner b = f :=
  (hn.scopes.mem_namingOrder hf).mp (horder ▸ List.mem_append_cons_self)

omit hf in
theorem not_mem_of_order : b ∉ before := fun hmem =>
  (List.nodup_append.mp (horder ▸ hn.scopes.nodup_namingOrder f)).2.2 b hmem b List.mem_cons_self rfl

/-- The fresh name that a binding gets is the one of its rank. -/
theorem Naming.fresh_eq (h : n.Naming start before claimed m) (hb : n.isRenamed b = true) :
    m.fresh claimed (n.binding b).name = n.outputName b := by
  rw [outputName_of_isRenamed hb, ← h.renames.reserved]
  refine m.fresh_of_claimed claimed _ fun i => ?_
  rw [h.renames.reserved, h.claims _ (not_spells_freeNumber _ _),
    ← rank_lt_iff (hn.scopes.nodup_namingOrder f)
      (fun c hc => ((hn.scopes.mem_namingOrder hf).mp hc).2) horder hb i]
  refine exists_congr fun c => and_congr_right fun _ => and_congr_right fun hc => ?_
  rw [outputName_of_isRenamed hc]
  constructor
  · intro heq
    obtain ⟨hname, hnumber⟩ := numbered_inj heq
    rw [hname] at hnumber
    exact ⟨hname.symm, (freeNumber_inj _ (Nat.succ.inj hnumber)).symm⟩
  · rintro ⟨hname, rfl⟩
    rw [hname]

/-- One step through the bindings of the blocks of a function. -/
theorem Naming.inner (h : n.Naming start before claimed m) (hs : (n.binding b).scope ≠ (n.function f).scope) :
    n.Naming start (before ++ [b]) (nameInner claimed m b).1 (nameInner claimed m b).2 := by
  obtain ⟨hb, howner⟩ := lt_of_order hn hf horder
  have hkind : ¬ ((n.binding b).isGlobal = true ∨ (n.binding b).kind = .param ∨ (n.binding b).kind = .self) :=
    fun hkind => hs (howner ▸ hn.scope_of_kind hb hkind)
  simp only [not_or, Bool.not_eq_true] at hkind
  unfold nameInner
  simp only [h.renames.keepsName, h.renames.name]
  by_cases hkeeps : keepsName (n.binding b) = true
  · have hrenamed : n.isRenamed b = true := by simp [isRenamed, hkeeps, hkind, howner, hs]
    rw [if_pos hkeeps, h.fresh_eq hn hf horder hrenamed]
    exact h.setOutput hb fun hnot => by rw [hrenamed] at hnot; cases hnot
  · rw [if_neg hkeeps]
    refine h.skip (by simp [isRenamed, hkeeps]) fun hnamed => ?_
    simp [isNamed, hkeeps, hkind] at hnamed

/-- One step through the bindings of a function's own scope. -/
theorem Naming.own (h : n.Naming start before claimed m) (hc : n.OwnClaims f before claimed)
    (hstart : start.binding b = n.binding b) (hs : (n.binding b).scope = (n.function f).scope)
    (hbefore : ∀ c, c ∈ before → c < n.bindings.size ∧ (n.binding c).scope = (n.function f).scope) :
    n.Naming start (before ++ [b]) (nameOwn claimed m b).1 (nameOwn claimed m b).2 ∧
      n.OwnClaims f (before ++ [b]) (nameOwn claimed m b).1 := by
  obtain ⟨hb, howner⟩ := lt_of_order hn hf horder
  have hnot := not_mem_of_order hn horder
  have hspelled : n.Spells (n.binding b).name := hn.kinds.declared hb
  have houtput : (m.binding b).output = (n.binding b).output := by rw [h.others b hnot, hstart]
  have hfit := hn.kinds.fits hb
  -- A claimed name of the script that is the one of the binding can only be that of a parameter.
  have hclaimed : (n.binding b).name ∈ claimed ↔ n.HasParam f (n.binding b).name := by
    refine ⟨fun hmem => (hc.own _ hspelled hmem).resolve_right ?_, hc.params _⟩
    rintro ⟨c, hmem, -, hname⟩
    obtain ⟨hlt, hscope⟩ := hbefore c hmem
    exact hnot (hn.scopes.name_inj hlt hb (hscope.trans hs.symm) hname ▸ hmem)
  have hrenamed : n.isRenamed b = true ↔ keepsName (n.binding b) = true ∧ (n.binding b).isGlobal = false ∧
      (n.binding b).kind ≠ .param ∧ (n.binding b).kind ≠ .self ∧ n.HasParam f (n.binding b).name := by
    simp only [isRenamed, Bool.and_eq_true, Bool.or_eq_true, Bool.not_eq_true', bne_iff_ne, howner, hs,
      ne_eq, not_true, false_or, any_params, and_assoc]
  unfold nameOwn
  simp only [h.renames.keepsName, h.renames.name, h.renames.isGlobal, h.renames.kind]
  by_cases hgiven : ((n.binding b).isGlobal || (n.binding b).kind == .param) = true
  · rw [if_pos hgiven]
    simp only [Bool.or_eq_true, beq_iff_eq] at hgiven
    have hnot_renamed : n.isRenamed b = false := by
      rw [← Bool.not_eq_true, hrenamed]
      rintro ⟨-, hglobal, hparam, -⟩
      rcases hgiven with hgiven | hgiven
      · rw [hglobal] at hgiven
        cases hgiven
      · exact hparam hgiven
    have hself : (n.binding b).kind ≠ .self := by
      rcases hgiven with hgiven | hgiven
      · exact (hfit.global hgiven).2.2.2
      · rw [hgiven]
        nofun
    refine ⟨(h.skip hnot_renamed fun _ => ?_).insert hspelled, hc.insert hself fun _ => rfl⟩
    rw [houtput, outputName_of_not_isRenamed hnot_renamed]
    exact hgiven.elim (fun hg => (hfit.global hg).2.1) fun hg => (hfit.param hg).2.2
  · rw [if_neg hgiven]
    simp only [Bool.or_eq_true, beq_iff_eq, not_or, Bool.not_eq_true] at hgiven
    by_cases hkeeps : ((n.binding b).kind != .self && keepsName (n.binding b)) = true
    · rw [if_pos hkeeps]
      simp only [Bool.and_eq_true, bne_iff_ne, ne_eq] at hkeeps
      have hclaim : m.claim claimed (n.binding b).name = n.outputName b := by
        unfold claim
        by_cases hparam : n.HasParam f (n.binding b).name
        · have hb' := hrenamed.mpr ⟨hkeeps.2, hgiven.1, hgiven.2, hkeeps.1, hparam⟩
          rw [if_pos (Std.TreeSet.contains_iff_mem.mpr (hclaimed.mpr hparam)), h.fresh_eq hn hf horder hb']
        · have hb' : n.isRenamed b = false := by
            rw [← Bool.not_eq_true, hrenamed]
            exact fun hr => hparam hr.2.2.2.2
          rw [if_neg fun hmem => hparam (hclaimed.mp (Std.TreeSet.contains_iff_mem.mp hmem)),
            outputName_of_not_isRenamed hb']
      rw [hclaim]
      refine ⟨h.setOutput hb fun hb' => outputName_of_not_isRenamed hb' ▸ hspelled, ?_⟩
      exact hc.insert hkeeps.1 eq_of_spells_outputName
    · rw [if_neg hkeeps]
      have hnot_renamed : n.isRenamed b = false := by
        rw [← Bool.not_eq_true, hrenamed]
        rintro ⟨hk, -, -, hself, -⟩
        exact hkeeps (by simp [hk, hself])
      refine ⟨h.skip hnot_renamed fun hnamed => ?_, hc.skip b⟩
      rw [houtput, outputName_of_not_isRenamed hnot_renamed]
      refine (hfit.self ?_).2.2.2.2.2
      by_contra hself
      simp [isNamed, hgiven, hself] at hnamed
      simp [hself, hnamed] at hkeeps

end Step

/-! ## Naming the bindings of a function -/

/-- A fold through a part of a list keeps what each step keeps of the elements that it went through. -/
theorem foldl_of_prefix {α β : Type} {step : β → α → β} {motive : List α → β → Prop}
    {order : List α} (before l after : List α) {acc : β} (horder : order = before ++ (l ++ after))
    (hstep : ∀ before b after acc, b ∈ l → order = before ++ b :: after → motive before acc →
      motive (before ++ [b]) (step acc b))
    (h : motive before acc) : motive (before ++ l) (l.foldl step acc) := by
  induction l generalizing before acc with
  | nil => simpa using h
  | cons b l ih =>
    have hl := ih (before ++ [b]) (by simpa using horder)
      (fun before c after acc hc => hstep before c after acc (List.mem_cons_of_mem _ hc))
      (hstep before b (l ++ after) acc List.mem_cons_self horder h)
    simpa using hl

section Function

variable {start : Names} {f : FuncId} {claimed : NameSet}

theorem mem_foldl_insert {l : List Formal} {x : String} :
    x ∈ l.foldl (fun (c : NameSet) p => c.insert p.name) claimed ↔ (∃ p, p ∈ l ∧ p.name = x) ∨ x ∈ claimed := by
  induction l generalizing claimed with
  | nil => simp
  | cons p l ih =>
    rw [List.foldl_cons, ih, mem_insert_name]
    simp only [List.mem_cons, exists_eq_or_imp, @eq_comm _ x, or_assoc, or_left_comm]

theorem Naming.of_mem_iff {done done' : List BindingId} (h : n.Naming start done claimed m)
    (hmem : ∀ b, b ∈ done' ↔ b ∈ done) : n.Naming start done' claimed m where
  renames := h.renames
  functions := h.functions
  output b hb := h.output b ((hmem b).mp hb)
  others b hb := h.others b fun hb' => hb ((hmem b).mpr hb')
  claims x hx := by simp only [h.claims x hx, hmem]

variable (hn : n.InOrder Q n.Spells) (hf : f < n.functions.size) (hstart : n.Renames start)
  (hown : ∀ b, b ∈ n.namingOrder f → start.binding b = n.binding b)

include hn hf hstart hown

/-- All bindings of a function's own scope get their names. -/
theorem naming_own :
    let params := (n.function f).params.foldl (fun (c : NameSet) p => c.insert p.name) {}
    let bindings := (n.scope (n.function f).scope).bindings
    let own := bindings.foldl (fun acc b => nameOwn acc.1 acc.2 b) (params, start)
    n.Naming start bindings own.1 own.2 ∧ n.OwnClaims f bindings own.1 := by
  intro params bindings own
  have hparams (x : String) : x ∈ params ↔ n.HasParam f x := by
    simp [params, mem_foldl_insert, HasParam]
  -- Every parameter has a binding, so its name is one that the script declares.
  have hspelled (x : String) (hx : n.HasParam f x) : n.Spells x := by
    obtain ⟨b, hb⟩ := hn.params f x hx
    obtain ⟨hlt, -, hname⟩ := hn.scopes.lookup_eq_some.mp hb
    exact hname ▸ hn.kinds.declared hlt
  have hinitial : n.Naming start [] params start ∧ n.OwnClaims f [] params := by
    refine ⟨⟨hstart, rfl, by simp, fun _ _ => rfl, fun x hx => ?_⟩, fun x hx => (hparams x).mpr hx,
      fun x _ hx => .inl ((hparams x).mp hx)⟩
    exact iff_of_false (fun hmem => hx (hspelled x ((hparams x).mp hmem))) (by simp)
  have hmem (c : BindingId) (hc : c ∈ bindings) : c < n.bindings.size ∧ (n.binding c).scope = (n.function f).scope :=
    hn.scopes.mem_bindings.mp hc
  refine foldl_of_prefix
    (motive := fun done (acc : NameSet × Names) => n.Naming start done acc.1 acc.2 ∧ n.OwnClaims f done acc.1)
    [] bindings [] rfl (fun before b after acc hb horder h => ?_) hinitial
  rw [List.append_nil, List.nil_append] at horder
  have horder' : n.namingOrder f = before ++ b :: (after ++ n.blockBindings f) := by
    change bindings ++ n.blockBindings f = _
    rw [horder, List.append_assoc, List.cons_append]
  refine h.1.own hn hf horder' h.2 (hown b (List.mem_append_left _ hb)) (hmem b hb).2 fun c hc => hmem c ?_
  rw [horder]
  exact List.mem_append_left _ hc

omit hstart hown in
/-- The own name of a function expression is not claimed, so it stays. -/
theorem Naming.self (h : n.Naming start (n.scope (n.function f).scope).bindings claimed m)
    (hc : n.OwnClaims f (n.scope (n.function f).scope).bindings claimed) {x : Signature}
    (hscope : x.scope = (n.function f).scope) (hname : x.name = (n.function f).name) :
    n.Naming start (n.scope (n.function f).scope).bindings (nameSelf claimed m x).1 (nameSelf claimed m x).2 := by
  unfold nameSelf
  rw [hscope, hname, h.renames.remarks.lookup]
  cases hb : n.lookup (n.function f).scope (n.function f).name with
  | none => exact h
  | some b =>
    obtain ⟨hlt, hs, hbname⟩ := hn.scopes.lookup_eq_some.mp hb
    have hmem := hn.scopes.mem_bindings.mpr ⟨hlt, hs⟩
    have howner : n.owner b = f := by rw [owner, hs, hn.scopes.owner_scope hf]
    dsimp only
    split
    · next hself =>
      rw [h.renames.kind] at hself
      have hfit := (hn.kinds.fits hlt).self hself
      have hspelled : n.Spells (n.function f).name := hbname ▸ hn.kinds.declared hlt
      have hfree : (n.function f).name ∉ claimed := by
        intro hmem
        rcases hc.own _ hspelled hmem with hparam | ⟨c, hmem, hkind, hcname⟩
        · refine hfit.2.1 ?_
          rw [hbname]
          exact howner ▸ hparam
        · obtain ⟨hclt, hcs⟩ := hn.scopes.mem_bindings.mp hmem
          refine hkind ?_
          rw [hn.scopes.name_inj hclt hlt (hcs.trans hs.symm) (hcname.trans hbname.symm), hself]
      have hrenamed : n.isRenamed b = false := by simp [isRenamed, hself]
      have houtput := (outputName_of_not_isRenamed hrenamed).trans hbname
      rw [claim, if_neg fun hmem => hfree (Std.TreeSet.contains_iff_mem.mp hmem), ← houtput]
      refine (h.setOutput hlt fun _ => houtput ▸ hspelled).of_mem_iff fun c => ?_
      simp only [List.mem_append, List.mem_singleton]
      exact ⟨.inl, fun hc => hc.elim id fun hc => hc ▸ hmem⟩
    · exact h

/-- What naming the bindings of a function does. -/
theorem nameFunction_ok : ∃ named : Names, (∃ claimed, n.Naming start (n.namingOrder f) claimed named) ∧
    start.nameFunction f = named.modifyFunction f fun x =>
      { x with pinned := (n.declaredBindings f).map fun b => (named.binding b).output } := by
  let own := (n.scope (n.function f).scope).bindings.foldl (fun acc b => nameOwn acc.1 acc.2 b)
    ((n.function f).params.foldl (fun (c : NameSet) p => c.insert p.name) {}, start)
  let self := nameSelf own.1 own.2 (start.function f)
  let inner := (n.blockBindings f).foldl (fun acc b => nameInner acc.1 acc.2 b) self
  have hparams : (start.function f).params = (n.function f).params := by rw [hstart.function]
  obtain ⟨hnaming, hclaims⟩ := naming_own hn hf hstart hown
  have hself := hnaming.self hn hf hclaims (hstart.remarks.function_scope f)
    (x := start.function f) (by rw [hstart.function])
  have hinner : n.Naming start (n.namingOrder f) inner.1 inner.2 := by
    refine foldl_of_prefix
      (motive := fun done (acc : NameSet × Names) => n.Naming start done acc.1 acc.2)
      _ (n.blockBindings f) [] rfl (fun before b after acc hb horder h => ?_) hself
    rw [List.append_nil] at horder
    exact h.inner hn hf horder (hn.scopes.scope_of_mem_blockBindings hb)
  have hblocks : ((start.scopesOf f).filter (· ≠ (start.function f).scope)).flatMap
      (fun s => (start.scope s).bindings) = n.blockBindings f := by
    simp only [blockBindings, hstart.scopesOf, hstart.remarks.function_scope, hstart.remarks.scope]
  have hown_eq : (start.scope (start.function f).scope).bindings.foldl
      (fun acc b => nameOwn acc.1 acc.2 b)
      ((start.function f).params.foldl (fun (c : NameSet) p => c.insert p.name) {}, start) = own := by
    rw [hparams, hstart.remarks.function_scope, hstart.remarks.scope]
  have hdeclared : ((start.scopesOf f).flatMap fun s => (inner.2.scope s).bindings).filter
      (fun b => isDeclared (inner.2.binding b)) = n.declaredBindings f := by
    rw [hstart.scopesOf, ← hinner.renames.scopesOf]
    exact hinner.renames.declaredBindings f
  refine ⟨inner.2, ⟨inner.1, hinner⟩, ?_⟩
  unfold nameFunction
  dsimp only
  rw [hown_eq, hblocks, hdeclared]

end Function

/-! ## Naming the bindings of all functions -/

/-- The names of a script in which the bindings of the first functions are named. -/
structure NamedBelow (n : Names) (k : Nat) (m : Names) : Prop where
  renames : n.Renames m
  output : ∀ {b}, b < n.bindings.size → n.owner b < k → n.isNamed b = true →
    (m.binding b).output = n.outputName b
  others : ∀ {b}, b < n.bindings.size → k ≤ n.owner b → m.binding b = n.binding b
  pinned : ∀ {f}, f < n.functions.size → f < k →
    (m.function f).pinned = (n.declaredBindings f).map n.outputName

theorem mem_declaredBindings (hn : n.Scoped) {f : FuncId} {b : BindingId} :
    b ∈ n.declaredBindings f ↔ b < n.bindings.size ∧ n.owner b = f ∧ isDeclared (n.binding b) = true := by
  simp only [declaredBindings, List.mem_filter, List.mem_flatMap, scopesOf, List.mem_range, beq_iff_eq,
    hn.mem_bindings]
  constructor
  · rintro ⟨⟨s, ⟨-, hs⟩, hb, rfl⟩, hdeclared⟩
    exact ⟨hb, hs, hdeclared⟩
  · rintro ⟨hb, hs, hdeclared⟩
    exact ⟨⟨_, ⟨hn.binding_scope_lt hb, hs⟩, hb, rfl⟩, hdeclared⟩

theorem isNamed_of_isDeclared {b : BindingId} (h : isDeclared (n.binding b) = true) : n.isNamed b = true := by
  simp only [isDeclared, Bool.and_eq_true] at h
  simp only [isNamed, keepsName, h.1.1.1.1, Bool.true_or]

/-- Naming one more function. -/
theorem NamedBelow.step (hn : n.InOrder Q n.Spells) {k : Nat} (hk : k < n.functions.size)
    (h : n.NamedBelow k m) : n.NamedBelow (k + 1) (m.nameFunction k) := by
  have horder {b : BindingId} : b ∈ n.namingOrder k ↔ b < n.bindings.size ∧ n.owner b = k :=
    hn.scopes.mem_namingOrder hk
  obtain ⟨named, ⟨claimed, hnaming⟩, heq⟩ := nameFunction_ok hn hk h.renames fun b hb =>
    h.others (horder.mp hb).1 (Nat.le_of_eq (horder.mp hb).2.symm)
  rw [heq]
  refine ⟨hnaming.renames.trans (.setPinned named k _), fun {b} hb hlt hnamed => ?_, fun {b} hb hge => ?_,
    fun {f} hf hlt => ?_⟩
  · change (named.binding b).output = _
    by_cases hmem : b ∈ n.namingOrder k
    · exact hnaming.output b hmem hnamed
    · rw [hnaming.others b hmem]
      exact h.output hb (Nat.lt_of_le_of_ne (Nat.le_of_lt_succ hlt) fun ho => hmem (horder.mpr ⟨hb, ho⟩)) hnamed
  · change named.binding b = _
    rw [hnaming.others b fun hmem => Nat.ne_of_gt hge (horder.mp hmem).2]
    exact h.others hb (Nat.le_of_succ_le hge)
  · rw [function_modifyFunction]
    split
    · next hfk =>
      rw [hfk.1]
      refine List.map_congr_left fun b hb => ?_
      obtain ⟨hlt, howner, hdeclared⟩ := (mem_declaredBindings hn.scopes).mp hb
      exact hnaming.output b (horder.mpr ⟨hlt, howner⟩) (isNamed_of_isDeclared hdeclared)
    · next hfk =>
      have hne : f ≠ k := fun hfk' => hfk ⟨hfk', hnaming.renames.functions_size.symm ▸ hk⟩
      rw [function, hnaming.functions]
      exact h.pinned hf (Nat.lt_of_le_of_ne (Nat.le_of_lt_succ hlt) hne)

/-- The names of a script in which all bindings are named. -/
structure Named (n m : Names) : Prop where
  renames : n.Renames m
  output : ∀ {b}, b < n.bindings.size → n.isNamed b = true → (m.binding b).output = n.outputName b
  pinned : ∀ {f}, f < n.functions.size → (m.function f).pinned = (n.declaredBindings f).map n.outputName

/-- Every binding that has a name in the output gets the one of its rank. -/
theorem named_nameAll (hn : n.InOrder Q n.Spells) : n.Named n.nameAll := by
  have hrun (k : Nat) (hk : k ≤ n.functions.size) :
      n.NamedBelow k ((List.range k).foldl nameFunction n) := by
    induction k with
    | zero => exact ⟨.refl n, nofun, fun _ _ => rfl, nofun⟩
    | succ k ih =>
      rw [List.range_succ, List.foldl_append]
      exact (ih (Nat.le_of_succ_le hk)).step hn hk
  have h := hrun n.functions.size (Nat.le_refl _)
  exact ⟨h.renames, fun hb => h.output hb (hn.scopes.owner_lt (hn.scopes.binding_scope_lt hb)),
    fun hf => h.pinned hf hf⟩

end ScriptOptimizer.Names

namespace ScriptOptimizer

/-- Resolving a script puts its names in order and then gives them their outputs. -/
theorem Script.resolve_named {Q : String → Prop} {s r : Script} {m : Names} (h : s.resolve = .ok (r, m))
    (hQ : s.All (Node.Refers Q)) :
    ∃ n : Names, n.Resolved Q ∧ n.Named m ∧ (s.All (startsPlain · = true) → r.All (startsPlain · = true)) := by
  obtain ⟨n, hrun, rfl⟩ := Script.resolve_ok h
  have hresolved := Script.resolution_ok hrun hQ
  exact ⟨n, hresolved, Names.named_nameAll hresolved.inOrder, fun hs => hs.of_resolve h⟩

end ScriptOptimizer
