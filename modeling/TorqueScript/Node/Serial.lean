import TorqueScript.Json
import TorqueScript.Node

/-!
# Serialized trees

`Node.toJson` gives the JSON value of a node: an object whose one key names the kind of node, or just
that name for a node without parts.
-/

namespace TorqueScript

/-- A value under the name of its kind. -/
def Json.tagged (kind : String) (value : Json) : Json :=
  .object [(kind, value)]

/-- A constant under the name of its kind. -/
def Constant.toJson : Constant → Json
  | uint v => .tagged "Uint" (.nat v.toNat)
  | float x => .tagged "Float" (.float x)
  | str s => .tagged "Str" (.str s)
  | ident s => .tagged "Ident" (.str s)
  | tagged s => .tagged "Tagged" (.str s)

namespace Node

mutual

/-- The JSON value of a node. -/
def toJson : Node → Json
  | ret value => .tagged "Return" (optionToJson value)
  | ifElse condition thenBody elseBody => .tagged "If" (.object
      [("condition", toJson condition), ("then_body", .list (listToJson thenBody)),
        ("else_body", .list (listToJson elseBody))])
  | loop kind init condition step body => .tagged "Loop" (.object
      [("kind", .str kind.name), ("init", optionToJson init), ("condition", toJson condition),
        ("end", optionToJson step), ("body", .list (listToJson body))])
  | breakLoop => .str "Break"
  | continueLoop => .str "Continue"
  | unary op operand => .tagged "Unary" (.object
      [("op", .str op.name), ("operand", toJson operand)])
  | binary op left right => .tagged "Binary" (.object
      [("op", .str op.name), ("left", toJson left), ("right", toJson right)])
  | compare op left right => .tagged "BinaryString" (.object
      [("op", .str op.name), ("left", toJson left), ("right", toJson right)])
  | concat join left right => .tagged "Concat" (.object
      [("join", .str join.name), ("left", toJson left), ("right", toJson right)])
  | comma left right => .tagged "CommaConcat" (.object
      [("left", toJson left), ("right", toJson right)])
  | conditional condition thenValue elseValue => .tagged "Conditional" (.object
      [("condition", toJson condition), ("then_value", toJson thenValue),
        ("else_value", toJson elseValue)])
  | field owner name index => .tagged "Field" (.object
      [("object", optionToJson owner), ("name", .str name), ("index", optionToJson index)])
  | var name index => .tagged "Variable" (.object
      [("name", .str name), ("index", optionToJson index)])
  | constant value => .tagged "Constant" value.toJson
  | assign target op value => .tagged "Assignment" (.object
      [("target", toJson target), ("op", .ofString? (op.map (·.name))), ("value", toJson value)])
  | object className name parent isDatablock args fields children depth =>
    .tagged "ObjectDeclaration" (.object
      [("class", toJson className), ("name", optionToJson name), ("parent", .ofString? parent),
        ("is_datablock", .bool isDatablock), ("args", .list (listToJson args)),
        ("fields", .list (listToJson fields)), ("children", .list (listToJson children)),
        ("depth", .nat depth)])
  | call name nameSpace callType args => .tagged "FunctionCall" (.object
      [("name", .str name), ("namespace", .ofString? nameSpace), ("call_type", .str callType.name),
        ("args", .list (listToJson args))])
  | function s body => .tagged "FunctionDeclaration" (.object
      [("name", .str s.name), ("namespace", .ofString? s.nameSpace),
        ("package", .ofString? s.package), ("args", .list (s.args.map .str)),
        ("body", .list (listToJson body))])
  | package name functions => .tagged "Package" (.object
      [("name", .str name), ("functions", .list (listToJson functions))])

/-- A node that may be missing. -/
def optionToJson : Option Node → Json
  | none => .null
  | some n => toJson n

/-- The values of a list of nodes. -/
def listToJson : List Node → List Json
  | [] => []
  | n :: ns => toJson n :: listToJson ns

end

end Node

end TorqueScript
