import ScriptOptimizer.Diagnostic.Basic
import ScriptOptimizer.Text.Blank

/-!
# Reports

A report shows a diagnostic against the source it is about: a title, the place, the line with a marker
under the span, and the advice. Colors are optional.
-/

namespace ScriptOptimizer

/-- How the parts of a report are colored. -/
structure Palette where
  level : Level → String → String
  dim : String → String
  bold : String → String
  note : String → String
  advice : String → String

namespace Palette

/-- No colors. -/
def plain : Palette := ⟨fun _ s => s, id, id, id, id⟩

/-- The escape character that starts a terminal code. -/
def escape : String := String.singleton (Char.ofNat 27)

/-- A text between two terminal codes. -/
def wrap (on off : String) (s : String) : String :=
  escape ++ "[" ++ on ++ "m" ++ s ++ escape ++ "[" ++ off ++ "m"

/-- The terminal code of a severity. -/
def levelCode : Level → String
  | .warning => "33;1"
  | .note => "34;1"
  | .help => "32;1"
  | _ => "31;1"

/-- Terminal colors. -/
def terminal : Palette where
  level l := wrap (levelCode l) "0;22"
  dim := wrap "2" "22"
  bold := wrap "1" "22"
  note := wrap "34" "0"
  advice := wrap "32" "0"

/-- Terminal colors or none. -/
def ofColor (color : Bool) : Palette := if color then terminal else plain

end Palette

namespace Diagnostic

/-- The general advice for the category of a code. -/
def categoryHelp (code : String) : String :=
  match category code with
  | "Unsupported" =>
    "only the supported script subset can be optimized; the input is left as written"
  | "Internal" => "the input is valid; please report it together with this message"
  | _ => ""

/-- The advice of a diagnostic, its own before that of its category. -/
def advice (d : Diagnostic) : String := if d.help = "" then categoryHelp d.code else d.help

/-- A character without its case; two characters beyond ASCII fold to ASCII letters. -/
def foldCase (c : Char) : Char :=
  if c.toNat = 0x212A then 'k' else if c.toNat = 0x17F then 's' else c.toLower

/-- The text beside the marker: the description of the code when it adds to the message. -/
def label (d : Diagnostic) : String :=
  let text := description d.code
  if text = description "" then ""
  else
    match text.toList with
    | [] => ""
    | c :: cs =>
      let lower := c.toLower :: cs
      if lower.map foldCase = d.message.toList.map foldCase then "" else String.ofList lower

def spaces (n : Nat) : String := String.ofList (List.replicate n ' ')

/-- A number aligned to the right. -/
def padLeft (width : Nat) (n : Int) : String :=
  let text := toString n
  spaces (width - text.length) ++ text

/-- The marker under `length` columns from `column` on, and its label. -/
def marker (d : Diagnostic) (paint : Palette) : String :=
  let length := if d.length ≤ 0 then 1 else d.length.toNat
  let caret := spaces (d.column - 1).toNat ++
    paint.level d.level (String.ofList (List.replicate length '^'))
  if d.label = "" then caret else caret ++ " " ++ paint.level d.level d.label

/-- The report of a diagnostic against a source. -/
def report (d : Diagnostic) (file source : String) (paint : Palette) : String :=
  let lines := source.splitOn "\n"
  let width := max 3 (toString d.line).length
  let gutter := spaces width
  let bar := paint.dim "|"
  let title := paint.level d.level d.level.word ++ (d.title.drop d.level.word.length).toString ++ "\n"
  let place :=
    if 0 < d.line ∧ d.line ≤ lines.length then
      let line := lines.getD (d.line - 1).toNat ""
      let before := lines.getD (d.line - 2).toNat ""
      let context :=
        if 1 < d.line ∧ !isBlankString before then
          paint.dim (padLeft width (d.line - 1)) ++ " " ++ bar ++ " " ++ before ++ "\n"
        else ""
      let arrow := paint.dim "-->"
      s!"{gutter} {arrow} {file}:{d.line}:{d.column}\n" ++
        gutter ++ " " ++ bar ++ "\n" ++ context ++
        paint.bold (padLeft width d.line) ++ " " ++ bar ++ " " ++ line ++ "\n" ++
        gutter ++ " " ++ bar ++ " " ++ d.marker paint ++ "\n"
    else if file = "" then ""
    else gutter ++ " " ++ paint.dim "-->" ++ " " ++ file ++ "\n"
  let item := fun (word text : String) =>
    gutter ++ " " ++ paint.dim "=" ++ " " ++ word ++ " " ++ text ++ "\n"
  let notes := d.notes.map (item (paint.note "note:"))
  let suggestions := d.suggestions.map (item (paint.advice "try:"))
  let help := if d.advice = "" then [] else [item (paint.advice "help:") d.advice]
  title ++ place ++ String.join (notes ++ suggestions ++ help) ++ "\n"

end Diagnostic

end ScriptOptimizer
