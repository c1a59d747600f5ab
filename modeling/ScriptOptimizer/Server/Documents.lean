import ScriptOptimizer.Compile
import ScriptOptimizer.Server.Finding
import ScriptOptimizer.Server.Semantic
import ScriptOptimizer.Server.Uri

/-!
# The language server

The server keeps the texts of the documents that clients opened, or asked about, and apart from them the
trees of those that could be parsed. Every new text is parsed and lowered, and what the optimizer refuses in
it is published. A request changes the documents and gives a result.
-/

namespace ScriptOptimizer

/-- The findings of a text. -/
def findings (path text : String) : List Finding :=
  match Script.parse path text >>= Script.lower with
  | .ok _ => []
  | .error f => [.ofFailure f]

/-- The replacement of a span of a document. -/
structure Edit where
  span : Span
  text : String
deriving DecidableEq, Repr

/-- The findings of a document, sent to the client. -/
structure Publication where
  uri : String
  findings : List Finding
deriving DecidableEq, Repr

/-- A change of a document. -/
inductive Change where
  | whole (text : String)
  | part
deriving DecidableEq, Repr

namespace Server

/-- The name by which findings say where they come from. -/
def sourceName : String := "jsopt"

/-- The trace value of a server that was shut down. -/
def traceOff : String := "off"

/-- Why a request failed. -/
inductive Error where
  | uri (m : Uri.Malformed)
  | missingFile (path : String)

def Error.message : Error → String
  | uri m => m.message
  | missingFile path => s!"failed to read file {path}: " ++ missingReason path

/-- The texts and the trees of documents, each by path. -/
structure Documents where
  texts : Std.TreeMap String String := {}
  trees : Std.TreeMap String Script := {}

namespace Documents

/-- The documents with another text for a path; a tree that belonged to the text before is dropped. -/
def setText (d : Documents) (path text : String) : Documents where
  texts := d.texts.insert path text
  trees :=
    match Script.parse path text with
    | .ok tree => d.trees.insert path tree
    | .error _ => d.trees.erase path

/-- The documents without a path. -/
def remove (d : Documents) (path : String) : Documents := ⟨d.texts.erase path, d.trees.erase path⟩

end Documents

/-- A step of the server: it may publish findings and fails without undoing what it did. -/
abbrev Serve := ExceptT Error (StateM (Documents × List Publication))

def pathOf (uri : String) : Serve String := liftExcept ((Uri.path uri).mapError .uri)
where
  liftExcept (x : Except Error String) : Serve String :=
    match x with
    | .ok path => pure path
    | .error e => throw e

def publish (uri : String) (list : List Finding) : Serve Unit :=
  modify fun (d, out) => (d, out ++ [⟨uri, list⟩])

def documents : Serve Documents := return (← get).1

/-- Gives a document another text. -/
def update (uri text : String) : Serve Unit := do
  let path ← pathOf uri
  modify fun (d, out) => (d.setText path text, out)
  publish uri (findings path text)

/-- The text that remains of some changes: the last whole one. -/
def lastWhole? (changes : List Change) : Option String :=
  changes.foldl (fun found c =>
    match c with
    | .whole text => some text
    | .part => found) none

/-- Changes a document. -/
def change (uri : String) (changes : List Change) : Serve Unit :=
  match lastWhole? changes with
  | some text => update uri text
  | none => pure ()

/-- Forgets a document. -/
def close (uri : String) : Serve Unit := do
  let path ← pathOf uri
  modify fun (d, out) => (d.remove path, out)
  publish uri []

/-- The tree of a document, which is read from a file if the server knows neither a tree nor a text of it. -/
def load (files : Files) (uri : String) : Serve (Option Script) := do
  let path ← pathOf uri
  let d ← documents
  if d.trees.contains path || d.texts.contains path then return d.trees[path]?
  match files path with
  | none => throw (.missingFile path)
  | some text =>
    update uri text
    return (← documents).trees[path]?

def wholeSpan (text : String) : Span :=
  let lines := text.splitOn "\n"
  { endLine := lines.length - 1, endColumn := units16 (lines.getLastD "") }

/-- The text of a tree as the formatter lays it out. -/
def formatted (s : Script) : String := ((s.print {}).toOption.getD "") ++ "\n"

/-- The edits that format a document; none if it has no tree. -/
def format (files : Files) (uri : String) : Serve (Option (List Edit)) := do
  let path ← pathOf uri
  match ← load files uri with
  | none => return none
  | some tree =>
    let old := (← documents).texts[path]?.getD ""
    let text := formatted tree
    return some (if text = old then [] else [⟨wholeSpan old, text⟩])

/-- The semantic tokens of a document as numbers. -/
def tokens (files : Files) (uri : String) : Serve (List Nat) := do
  let tree ← load files uri
  return ((tree.map fun tree => (Semantic.encode (Semantic.collect tree)).map (·.toNat)).getD [])

end Server

end ScriptOptimizer
