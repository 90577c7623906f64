import ShaderIR.Analysis.Metadata
import ShaderIR.Printer

/-!
# The register chart

The chart has one row for each block heading and each instruction and one column for each register.
Blocks stand in the order of the dominator tree, unreachable ones last. A read of a register is a
filled dot in its column, a write a hollow one, and each dot is labelled with its slot.
-/

set_option autoImplicit false

namespace ShaderIR

inductive Shape where
  | rect (x y width height : Nat) (style : String)
  | text (x y : Nat) (label style : String)
  | line (x1 y1 x2 y2 : Nat) (style : String)
  | circle (x y radius : Nat) (style : String)
  deriving DecidableEq, Repr

namespace Chart

structure Access where
  slot : Slot
  write : Bool
  deriving DecidableEq

structure Row where
  label : String
  heading : Bool
  accesses : List Access
  deriving DecidableEq

structure Mark where
  row : Nat
  slot : Slot
  write : Bool
  deriving DecidableEq

def accessesOf (b : Body) (op : Op) : List Access :=
  (op.srcs.filterMap Operand.slot?).map (fun s => ⟨b.slot s, false⟩) ++
    op.slotDest?.toList.map fun s => ⟨b.slot s, true⟩

def instrRow (b : Body) (op : Op) : Row :=
  ⟨b.renderOp op, false, accessesOf b op⟩

def blockRows (b : Body) (blk : Block) : List Row :=
  ⟨blk.label, true, []⟩ :: (b.blockOps blk).map (instrRow b)

def blockOrder (b : Body) : List BlockId :=
  let order := b.dominancePreorder
  order ++ b.layout.toList.filter fun id => !order.contains id

def rows (b : Body) : List Row :=
  ((blockOrder b).filterMap (b.blocks[·]?)).flatMap (blockRows b)

def marks (rows : List Row) (reg : Register) : List Mark :=
  rows.zipIdx.flatMap fun (row, i) =>
    (row.accesses.filter fun a => a.slot.reg = some reg).map fun a => ⟨i, a.slot, a.write⟩

def rowHeight : Nat := 24

def top : Nat := 100

def charWidth : Nat := 9

def columnWidth : Nat := 72

def rowY (i : Nat) : Nat := top + i * rowHeight

/-- The width of the instruction column, made for the longest instruction in bytes. -/
def textWidth (rows : List Row) : Nat :=
  let longest := (rows.filter (!·.heading)).foldl (fun n r => max n r.label.utf8ByteSize) 0
  longest * charWidth + 120

def rowShapes (textWidth width : Nat) (row : Row) (i : Nat) : List Shape :=
  let y := rowY i
  if row.heading then
    [.text 16 y row.label "fill:gray;font-size:16px;font-family:monospace",
      .line 10 (y - 16) (textWidth + 5) (y - 16) "stroke:lightgray"]
  else
    [.text textWidth y row.label
        "fill:black;font-size:16px;font-family:monospace;text-anchor:end",
      .line (textWidth + 10) (y - 5) (width - 50) (y - 5) "stroke:gray"]

def slotLabel (s : Slot) : String :=
  match s.indirect with
  | none => toString s.base
  | some v => if s.base = 0 then v.render else toString s.base ++ "+" ++ v.render

def markShapes (x : Nat) (m : Mark) : List Shape :=
  let y := rowY m.row - 5
  let fill := if m.write then "white" else "black"
  [.circle x y 4 ("fill:" ++ fill ++ ";stroke:black;stroke-width:2"),
    .text (x + 8) (y + 4) (slotLabel m.slot) "fill:gray;font-size:10px;font-family:monospace"]

def barShapes (x : Nat) (ms : List Mark) : List Shape :=
  match ms.head?, ms.getLast? with
  | some first, some last =>
    [.line x (rowY first.row - 5) x (rowY last.row - 5) "stroke:black;stroke-width:3"]
  | _, _ => []

def columnShapes (textWidth : Nat) (rows : List Row) (reg : Register) (i : Nat) : List Shape :=
  let x := textWidth + i * columnWidth + 50
  let ms := marks rows reg
  .text x 70 reg.renderDecl "fill:black;font-size:12px;font-family:monospace;text-anchor:middle" ::
    barShapes x ms ++ ms.flatMap (markShapes x)

structure Drawing where
  width : Nat
  height : Nat
  shapes : List Shape
  deriving DecidableEq, Repr

def drawing (b : Body) : Drawing :=
  let rs := rows b
  let text := textWidth rs
  let width := b.registers.size * columnWidth + text + 100
  let height := rs.length * rowHeight + top
  ⟨width, height, .rect 0 0 width height "fill:white" ::
    (rs.zipIdx.flatMap fun (r, i) => rowShapes text width r i) ++
    (b.registers.toList.zipIdx.flatMap fun (r, i) => columnShapes text rs r i)⟩

end Chart

/-- Text inside markup. A character that markup cannot hold becomes the replacement character. -/
def escapeMarkup (c : Char) : String :=
  match c with
  | '"' => "&#34;"
  | '\'' => "&#39;"
  | '&' => "&amp;"
  | '<' => "&lt;"
  | '>' => "&gt;"
  | '\t' => "&#x9;"
  | '\n' => "&#xA;"
  | '\r' => "&#xD;"
  | c =>
    if c.toNat < 0x20 || c.toNat == 0xFFFE || c.toNat == 0xFFFF then "�"
    else String.ofList [c]

def escapedText (s : String) : String :=
  String.join (s.toList.map escapeMarkup)

def attr (name value : String) : String :=
  " " ++ name ++ "=\"" ++ value ++ "\""

def numberAttr (name : String) (n : Nat) : String :=
  attr name (toString n)

def Shape.render : Shape → String
  | rect x y w h style =>
    "<rect" ++ numberAttr "x" x ++ numberAttr "y" y ++ numberAttr "width" w ++
      numberAttr "height" h ++ attr "style" style ++ " />"
  | text x y label style =>
    "<text" ++ numberAttr "x" x ++ numberAttr "y" y ++ attr "style" style ++ " >" ++
      escapedText label ++ "</text>"
  | line x1 y1 x2 y2 style =>
    "<line" ++ numberAttr "x1" x1 ++ numberAttr "y1" y1 ++ numberAttr "x2" x2 ++
      numberAttr "y2" y2 ++ attr "style" style ++ " />"
  | circle x y r style =>
    "<circle" ++ numberAttr "cx" x ++ numberAttr "cy" y ++ numberAttr "r" r ++
      attr "style" style ++ " />"

def Chart.Drawing.render (d : Chart.Drawing) : String :=
  renderLines <|
    ["<?xml version=\"1.0\"?>",
      "<!-- Generated by SVGo -->",
      "<svg" ++ numberAttr "width" d.width ++ numberAttr "height" d.height,
      "     xmlns=\"http://www.w3.org/2000/svg\"",
      "     xmlns:xlink=\"http://www.w3.org/1999/xlink\">"] ++
    d.shapes.map Shape.render ++ ["</svg>"]

def Body.draw : Edit String := do
  modify (Body.require ⟨false, true, false⟩)
  return (Chart.drawing (← get)).render

end ShaderIR
