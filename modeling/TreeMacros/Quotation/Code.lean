import TreeMacros.Tree.Location

/-!
# Code that builds values

Quoted code refers to the quotation library by its full name, so that it means the same wherever
it is spliced in.
-/

namespace TreeMacros.Quotation

def load : Value := .node .load []

def nameRef (id : String) : Value := .node .name [("id", .str id), ("ctx", load)]

def attributeOf (v : Value) (attr : String) : Value :=
  .node .attributeRef [("value", v), ("attr", .str attr), ("ctx", load)]

def libraryRef (attr : String) : Value := attributeOf (attributeOf (nameRef "mcpyrate") "quotes") attr

def classRef (name : String) : Value := attributeOf (libraryRef "ast") name

def callOf (func : Value) (args keywords : List Value) : Value :=
  .node .call [("func", func), ("args", .list args), ("keywords", .list keywords)]

def constantOf (v : Value) : Value := .node .constant [("value", v)]

def keywordOf (name : String) (v : Value) : Value := .node .keyword [("arg", .str name), ("value", v)]

def literalOf (v : Value) : Value := .node .literal [("body", v)]

end TreeMacros.Quotation
