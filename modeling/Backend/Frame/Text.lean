import Backend.Frame.Map
import Backend.Markup.Node
import Backend.Text.Ansi

/-! # The frame map as text

The map as a block document, and as a coloured table for a terminal.
-/

namespace Backend

def SlotEntry.toNode (s : SlotEntry) : Markup.Node :=
  .map [("name", .text s.name), ("depth", .word (toString s.depth)),
    ("position", .word (toString s.position)), ("size", .word (toString s.size)),
    ("offset", .word (toString s.offset))]

def FrameEntry.toNode (f : FrameEntry) : Markup.Node :=
  .map [("frame_size", .word (toString f.frameSize)), ("params", .list (f.params.map (·.toNode))),
    ("locals", .list (f.locals.map (·.toNode)))]

/-- The row of a slot in the table. -/
def SlotEntry.toRow (s : SlotEntry) : String :=
  "|   " ++ Column.right 5 (toString s.offset) ++ "(%rbx) " ++ Colour.yellow.paint s.name ++
    " depth " ++ toString s.depth ++ " size " ++ toString s.size ++ "\n"

namespace FrameMap

def toNode (map : FrameMap) : Markup.Node :=
  .map [("globals", .map (map.globals.map fun (name, size) => (name, .word (toString size)))),
    ("functions", .map (map.functions.map fun (name, entry) => (name, entry.toNode)))]

/-- The map as a block document. -/
def toBlock (map : FrameMap) : String := map.toNode.render

/-- The line between two functions of the table. -/
def rule : String :=
  "+---------------------------------------------------------------\n"

/-- The map as a coloured table. -/
def toTable (map : FrameMap) : String :=
  "+-[Globals]-----------------------------------------------------\n" ++
    String.join (map.globals.map fun (name, size) =>
      "| " ++ Colour.cyan.paint name ++ " : " ++ toString size ++ " bytes\n") ++
    String.join (map.functions.map fun (name, entry) =>
      rule ++ "| " ++ Colour.green.paint name ++ " : frame " ++ toString entry.frameSize ++
        " bytes\n" ++ String.join ((entry.params ++ entry.locals).map SlotEntry.toRow)) ++
    rule

end FrameMap

end Backend
