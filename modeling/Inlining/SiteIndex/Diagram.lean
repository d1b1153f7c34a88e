import Inlining.SiteIndex.Basic
import Inlining.Text

/-!
# Drawing an index

The index as a graph in the DOT language. Functions are boxes with frequency and size, the recursive
ones filled; every call site is an edge with its frequency, dashed once it was inlined.
-/

namespace Inlining

namespace SiteIndex

/-- The title unless one is given. -/
def defaultTitle : String := "Call Graph Index"

/-- The line for a function. -/
def functionLine (f : FunctionId) (record : FunctionRecord) : String :=
  let style := if record.recursive then ", style=filled, fillcolor=lightpink" else ""
  "    \"" ++ f.label ++ "\" [label=\"" ++ f.label ++ "\\nfreq=" ++ toString record.frequency
    ++ "\\nsize=" ++ toString record.size ++ "\"" ++ style ++ "];\n"

/-- The line for a call site. -/
def siteLine (r : SiteRecord) : String :=
  let style := if r.inlined then ", style=dashed" else ""
  "    \"" ++ r.caller.label ++ "\" -> \"" ++ r.callee.label ++ "\" [label=\""
    ++ toString r.frequency ++ "\"" ++ style ++ "];\n"

/-- The index as a DOT graph. -/
def diagram (ix : SiteIndex) (title : Option String) : String :=
  "digraph CallGraphIndex \x7b\n"
    ++ "    label=\"" ++ Text.Label.escape (title.getD defaultTitle) ++ "\";\n"
    ++ "    labelloc=t;\n"
    ++ "    node [shape=box, fontname=\"Courier\", fontsize=10];\n"
    ++ "    edge [fontname=\"Courier\", fontsize=9];\n\n"
    ++ String.join (ix.functions.toList.map fun (f, record) => functionLine f record)
    ++ "\n"
    ++ String.join (ix.ordered.map fun (_, r) => siteLine r)
    ++ "\x7d\n"

end SiteIndex

end Inlining
