import Campaign.Chart.Drawing

/-!
# Drawings as SVG

* `Svg.escape`: a text as it stands in a document;
* `Drawing.svg`: the element of a drawing.
-/

namespace Campaign

namespace Svg

/-- A character as it stands in a document. -/
def escapeChar (c : Char) : List Char :=
  match c with
  | '&' => ['&', 'a', 'm', 'p', ';']
  | '<' => ['&', 'l', 't', ';']
  | '>' => ['&', 'g', 't', ';']
  | '"' => ['&', 'q', 'u', 'o', 't', ';']
  | '\'' => ['&', 'a', 'p', 'o', 's', ';']
  | c => [c]

/-- A text as it stands in a document. -/
def escape (s : String) : String := String.ofList (s.toList.flatMap escapeChar)

/-- Attributes as they stand in an element. -/
def attributeText (attributes : List (String × String)) : String :=
  String.join (attributes.map fun (key, value) => String.join [" ", key, "=\"", value, "\""])

/-- An element without content, with its attributes. -/
def element (name : String) (attributes : List (String × String)) : String :=
  String.join ["<", name, attributeText attributes, "/>\n"]

/-- A text, centred or turned as its attributes say. -/
def text (c : Caption) (attributes : List (String × String)) : String :=
  String.join ["<text", attributeText (("x", toString c.x) :: ("y", toString c.y) :: attributes),
    ">\n", escape c.text, "\n</text>\n"]

/-- A rectangle. -/
def box (b : Box) (attributes : List (String × String)) : String :=
  element "rect" ([("x", toString b.x), ("y", toString b.y), ("width", toString b.width),
    ("height", toString b.height)] ++ attributes)

/-- The two ends of a line. -/
def points (s : Segment) : String :=
  String.join [toString s.x₁, ",", toString s.y₁, " ", toString s.x₂, ",", toString s.y₂]

/-- A line. -/
def segment (s : Segment) : String :=
  element "polyline" [("fill", "none"), ("stroke", "#000000"), ("points", points s)]

end Svg

open Svg in
/-- The element of a drawing, 800 pixels wide and 600 high. -/
def Drawing.svg (d : Drawing) : String :=
  let middle := ("text-anchor", "middle")
  let turn := String.join ["rotate(270, ", toString d.yLabel.x, ", ", toString d.yLabel.y, ")"]
  String.join ["<svg width=\"800\" height=\"600\">\n",
    box ⟨0, 0, 800, 600⟩ [("fill", "#FFFFFF")],
    text d.title [middle, ("font-size", "30")],
    text d.yLabel [middle, ("font-size", "18"), ("transform", turn)],
    String.join (d.xLabels.map (text · [middle, ("font-size", "18")])),
    String.join (d.bars.map (box · [("fill", "#87CEEB")])),
    String.join (d.outlines.map (box · [("fill", "none"), ("stroke", "#000000")])),
    String.join (d.segments.map segment),
    "</svg>\n"]

end Campaign
