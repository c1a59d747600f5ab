import Mathlib.Logic.Function.Basic
import ScriptOptimizer.Server.Documents

/-!
# The documents of the server

A client sends requests one after the other, and the files that can be read may change between them. The
texts and the trees of the server are kept in two maps, which every request changes one after the other. Both
stand for one plain table of texts: a request does to the table what it does to the two maps, so no tree
outlives its text, and a request touches only the document that it names.
-/

namespace ScriptOptimizer.Server

/-- A request of a client. One that may read a file brings the files that are there when it is served. -/
inductive Request where
  | openText (uri text : String)
  | change (uri : String) (changes : List Change)
  | close (uri : String)
  | format (files : Files) (uri : String)
  | tokens (files : Files) (uri : String)

namespace Request

/-- The document that a request names. -/
def uri : Request → String
  | openText uri _ | change uri _ | close uri | format _ uri | tokens _ uri => uri

/-- How a request is served, apart from its result. -/
def serve : Request → Serve Unit
  | openText uri text => update uri text
  | change uri changes => Server.change uri changes
  | close uri => Server.close uri
  | format files uri => do let _ ← Server.format files uri
  | tokens files uri => do let _ ← Server.tokens files uri

/-- The text of the named document behind a request, by its path and the text before. -/
def text? (path : String) (old : Option String) : Request → Option String
  | openText _ text => some text
  | change _ changes => (lastWhole? changes).or old
  | close _ => none
  | format files _ | tokens files _ => old.or (files path)

end Request

namespace Documents

/-- The text that is kept for a path. -/
def text? (d : Documents) (path : String) : Option String := d.texts[path]?

/-- The tree that is kept for a path. -/
def tree? (d : Documents) (path : String) : Option Script := d.trees[path]?

/-- The documents behind a request, whether it succeeds or fails. -/
def after (d : Documents) (r : Request) : Documents := (r.serve.run (d, [])).2.1

/-- The two maps stand for a table of texts: one has its texts, the other the trees of those that can be
parsed. -/
structure Holds (d : Documents) (table : String → Option String) : Prop where
  text : ∀ path, d.text? path = table path
  tree : ∀ path, d.tree? path = (table path).bind fun text => (Script.parse path text).toOption

/-- The table behind a request. -/
def edited (table : String → Option String) (r : Request) : String → Option String :=
  match Uri.path r.uri with
  | .ok path => Function.update table path (r.text? path (table path))
  | .error _ => table

section

variable {d : Documents} {table : String → Option String} {path : String}

theorem tree?_setText (d : Documents) (path text q : String) :
    (d.setText path text).tree? q = if path = q then (Script.parse path text).toOption else d.tree? q := by
  unfold tree? setText
  cases Script.parse path text with
  | ok tree => simp [Std.TreeMap.getElem?_insert, Except.toOption]
  | error f => simp [Std.TreeMap.getElem?_erase, Except.toOption]

theorem Holds.setText (h : d.Holds table) (text : String) :
    Holds (d.setText path text) (Function.update table path (some text)) := by
  constructor
  · intro q
    rw [text?, Documents.setText, Std.TreeMap.getElem?_insert]
    by_cases hq : path = q
    · subst hq
      simp
    · rw [Function.update_of_ne (Ne.symm hq), ← h.text]
      simp [hq, text?]
  · intro q
    rw [tree?_setText]
    by_cases hq : path = q
    · subst hq
      simp
    · rw [if_neg hq, Function.update_of_ne (Ne.symm hq), h.tree]

theorem Holds.remove (h : d.Holds table) : Holds (d.remove path) (Function.update table path none) := by
  constructor <;> intro q <;> by_cases hq : path = q
  · simp [text?, Documents.remove, hq]
  · rw [Function.update_of_ne (Ne.symm hq), ← h.text]
    simp [text?, Documents.remove, Std.TreeMap.getElem?_erase, hq]
  · simp [tree?, Documents.remove, hq]
  · rw [Function.update_of_ne (Ne.symm hq), ← h.tree]
    simp [tree?, Documents.remove, Std.TreeMap.getElem?_erase, hq]

/-- The server knows the documents that the table has. -/
theorem Holds.contains (h : d.Holds table) (path : String) :
    (d.trees.contains path || d.texts.contains path) = (table path).isSome := by
  rw [Std.TreeMap.contains_eq_isSome_getElem?, Std.TreeMap.contains_eq_isSome_getElem?]
  change ((d.tree? path).isSome || (d.text? path).isSome) = _
  rw [h.text, h.tree]
  cases table path <;> simp

end

end Documents

/-! ## Steps of the server -/

section

variable {d : Documents} {out : List Publication} {uri path : String} {files : Files}
  {m : Uri.Malformed}

/-- A step that starts with a path, on a URI that has one. -/
theorem run_pathOf_bind {α : Type} (h : Uri.path uri = .ok path) (step : String → Serve α) :
    (pathOf uri >>= step).run (d, out) = (step path).run (d, out) := by
  simp only [pathOf, h]
  rfl

/-- A step that starts with a path, on a URI that has none. -/
theorem run_pathOf_bind_of_error {α : Type} (h : Uri.path uri = .error m) (step : String → Serve α) :
    (pathOf uri >>= step).run (d, out) = (.error (.uri m), d, out) := by
  simp only [pathOf, h]
  rfl

theorem run_update (h : Uri.path uri = .ok path) (text : String) :
    (update uri text).run (d, out) = (.ok (), d.setText path text, out ++ [⟨uri, findings path text⟩]) := by
  simp only [update, run_pathOf_bind h]
  rfl

theorem run_close (h : Uri.path uri = .ok path) :
    (Server.close uri).run (d, out) = (.ok (), d.remove path, out ++ [⟨uri, []⟩]) := by
  simp only [Server.close, run_pathOf_bind h]
  rfl

theorem run_bind {α β : Type} (step : Serve α) (next : α → Serve β) (st : Documents × List Publication) :
    (step >>= next).run st =
      match step.run st with
      | (.ok a, st) => (next a).run st
      | (.error e, st) => (.error e, st) := by
  show ExceptT.bindCont next (step.run st).1 (step.run st).2 = _
  rcases step.run st with ⟨e | a, st⟩ <;> rfl

/-- A step that only reads leaves the state behind the one before it as it is. -/
theorem state_run_bind {α β : Type} (step : Serve α) {next : α → Serve β} (st : Documents × List Publication)
    (h : ∀ a st, ((next a).run st).2 = st) : ((step >>= next).run st).2 = (step.run st).2 := by
  rw [run_bind]
  rcases step.run st with ⟨e | a, st⟩
  · rfl
  · exact h a st

/-- The documents behind a request for a document that is read from a file if need be. -/
theorem documents_run_load (h : Uri.path uri = .ok path) :
    ((load files uri).run (d, out)).2.1 =
      match d.trees.contains path || d.texts.contains path, files path with
      | false, some text => d.setText path text
      | _, _ => d := by
  have hdocuments (next : Documents → Serve (Option Script)) :
      (documents >>= next).run (d, out) = (next d).run (d, out) := rfl
  simp only [load, run_pathOf_bind h, hdocuments]
  cases d.trees.contains path || d.texts.contains path with
  | true => rfl
  | false =>
    cases files path with
    | none => rfl
    | some text =>
      change ((update uri text >>= fun _ => do return (← documents).trees[path]?).run (d, out)).2.1 = _
      rw [state_run_bind _ _ fun _ _ => rfl, run_update h text]

theorem documents_run_format (files : Files) (uri : String) :
    ((Request.format files uri).serve.run (d, out)).2.1 = ((load files uri).run (d, out)).2.1 := by
  rw [Request.serve, state_run_bind _ _ fun _ _ => rfl, Server.format]
  cases h : Uri.path uri with
  | error m => rw [run_pathOf_bind_of_error h, load, run_pathOf_bind_of_error h]
  | ok path =>
    rw [run_pathOf_bind h, state_run_bind]
    intro tree st
    cases tree <;> rfl

theorem documents_run_tokens (files : Files) (uri : String) :
    ((Request.tokens files uri).serve.run (d, out)).2.1 = ((load files uri).run (d, out)).2.1 := by
  rw [Request.serve, state_run_bind _ _ fun _ _ => rfl, Server.tokens, state_run_bind _ _ fun _ _ => rfl]

end

/-! ## Requests -/

namespace Documents

variable {d : Documents} {table : String → Option String} {path uri : String}

/-- A request that names no path changes nothing. -/
theorem after_of_malformed {r : Request} {m : Uri.Malformed} (h : Uri.path r.uri = .error m) :
    d.after r = d := by
  have hupdate (text : String) : ((update r.uri text).run (d, [])).2.1 = d := by
    rw [update, run_pathOf_bind_of_error h]
  have hclose : ((Server.close r.uri).run (d, [])).2.1 = d := by
    rw [Server.close, run_pathOf_bind_of_error h]
  have hload (files : Files) : ((load files r.uri).run (d, [])).2.1 = d := by
    rw [load, run_pathOf_bind_of_error h]
  unfold after
  cases r with
  | openText uri text => exact hupdate text
  | change uri changes =>
    simp only [Request.serve, Server.change]
    cases lastWhole? changes with
    | none => rfl
    | some text => exact hupdate text
  | close uri => exact hclose
  | format files uri => exact (documents_run_format files uri).trans (hload files)
  | tokens files uri => exact (documents_run_tokens files uri).trans (hload files)

/-- A document is given a text. -/
theorem Holds.update (hpath : Uri.path uri = .ok path) (h : d.Holds table) (text : String) :
    Holds ((Server.update uri text).run (d, [])).2.1 (Function.update table path (some text)) := by
  rw [run_update hpath]
  exact h.setText text

/-- A document is forgotten. -/
theorem Holds.close (hpath : Uri.path uri = .ok path) (h : d.Holds table) :
    Holds ((Server.close uri).run (d, [])).2.1 (Function.update table path none) := by
  rw [run_close hpath]
  exact h.remove

/-- A document is there already, or is read from a file. -/
theorem Holds.load (hpath : Uri.path uri = .ok path) (h : d.Holds table) (files : Files) :
    Holds ((Server.load files uri).run (d, [])).2.1
      (Function.update table path ((table path).or (files path))) := by
  have hsame : Function.update table path (table path) = table := Function.update_eq_self path table
  rw [documents_run_load hpath, h.contains]
  cases htext : table path with
  | some text =>
    rw [htext] at hsame
    rw [Option.some_or, hsame]
    exact h
  | none =>
    rw [htext] at hsame
    cases hfile : files path with
    | none =>
      rw [Option.none_or, hsame]
      exact h
    | some text => exact h.setText text

/-- A request does to the table what it does to the two maps. -/
theorem Holds.after (h : d.Holds table) (r : Request) : Holds (d.after r) (edited table r) := by
  cases hpath : Uri.path r.uri with
  | error m =>
    rw [after_of_malformed hpath, edited, hpath]
    exact h
  | ok path =>
    simp only [edited, hpath]
    unfold Documents.after
    cases r with
    | openText uri text => exact h.update hpath text
    | change uri changes =>
      simp only [Request.serve, Server.change, Request.text?]
      cases lastWhole? changes with
      | none =>
        rw [Option.none_or, Function.update_eq_self]
        exact h
      | some text => exact h.update hpath text
    | close uri => exact h.close hpath
    | format files uri =>
      rw [documents_run_format]
      exact h.load hpath files
    | tokens files uri =>
      rw [documents_run_tokens]
      exact h.load hpath files

/-- The two maps stand for the table behind any requests. -/
theorem Holds.run (h : d.Holds table) (rs : List Request) :
    Holds (rs.foldl Documents.after d) (rs.foldl edited table) := by
  induction rs generalizing d table with
  | nil => exact h
  | cons r rs ih => exact ih (h.after r)

end Documents

end ScriptOptimizer.Server
