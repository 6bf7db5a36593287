import MethodFlow.Flow.Basic
import MethodFlow.Tree.Render

/-!
Control flow graphs in the DOT graph language. Each block is a box that shows its statements line by
line. Handler entries and the entry of the graph are filled, and edges are drawn by kind. A label
stands between double quotes, where a backslash protects the next character and angle brackets would
mark fields. A line break is written `\n`, and a carriage return is left out.
-/

namespace MethodFlow

namespace Text

def escapeLabelChar (c : Char) : List Char :=
  if c = '\\' then ['\\', '\\']
  else if c = '"' then ['\\', '"']
  else if c = '\n' then ['\\', 'n']
  else if c = '\r' then []
  else if c = '<' then ['\\', '<']
  else if c = '>' then ['\\', '>']
  else [c]

/-- The text with `written` in the place of every `c`. -/
def replaceEach (c : Char) (written text : String) : String :=
  String.ofList (text.toList.flatMap fun d => if d = c then written.toList else [d])

/-- The written form of a label text, in one pass over the text for each character that is not
written as it is. Backslashes come first: later passes bring backslashes of their own. -/
def escapeLabel (text : String) : String :=
  let text := replaceEach '\\' "\\\\" text
  let text := replaceEach '"' "\\\"" text
  let text := replaceEach '\n' "\\n" text
  let text := replaceEach '\r' "" text
  let text := replaceEach '<' "\\<" text
  replaceEach '>' "\\>" text

@[simp] theorem toList_replaceEach (c : Char) (written text : String) :
    (replaceEach c written text).toList =
      text.toList.flatMap fun d => if d = c then written.toList else [d] := by
  simp [replaceEach]

end Text

namespace FlowGraph

/-- The mark that ends a left-aligned line of a label. -/
def lineEnd : String := "\\l"

def headline (f : FlowGraph) (b : BlockId) : String :=
  let label := ((f.block? b).map fun block => block.label.toNat).getD 0
  s!"{b} @{label}" ++ if b = entry then " (entry)" else ""

def boxLabel (f : FlowGraph) (b : BlockId) : String :=
  f.headline b ++ lineEnd ++
    String.join ((f.statements b).map fun n => Text.escapeLabel (f.tree.text n) ++ lineEnd)

def boxStyle (f : FlowGraph) (b : BlockId) : String :=
  if b = entry then ", style=filled, fillcolor=lightgreen"
  else if f.handlers.any (·.entry = b) then ", style=filled, fillcolor=lightyellow"
  else ""

def edgeStyle : EdgeKind → String
  | .normal => ""
  | .exception => " [style=dashed, color=red]"
  | .subroutineCall | .subroutineReturn => " [style=dotted, color=blue]"

def boxLine (f : FlowGraph) (b : BlockId) : String :=
  s!"    {b} [label=\"" ++ f.boxLabel b ++ "\"" ++ f.boxStyle b ++ "];\n"

def edgeLine (e : Edge EdgeKind) : String :=
  s!"    {e.source} -> {e.target}" ++ edgeStyle e.label ++ ";\n"

def titleLine : Option String → String
  | some title => "    label=\"CFG: " ++ Text.escapeLabel title ++ "\";\n"
  | none => ""

def toDot (f : FlowGraph) (title : Option String) : String :=
  "digraph CFG \x7b\n" ++ titleLine title ++
    "    labelloc=t;\n    node [shape=box, fontname=\"Courier\", fontsize=10];\n\n" ++
    String.join (f.blocks.map f.boxLine) ++ "\n" ++
    String.join (f.graph.edgesBySource.map edgeLine) ++ "\x7d\n"

end FlowGraph

end MethodFlow
