import StoredProcedure.Syntax.Statement

namespace StoredProcedure

/-- A parameter of a function. Its schema is handed to the machine, which enforces it. -/
structure Input where
  name : String
  schema : Datum

structure Function where
  inputs : List Input
  body : List Statement

/-- A program: the version of its format, the global objects it declares and its functions. If no
global object is declared, references to global objects are not checked. -/
structure Program where
  version : String
  globals : NameSet
  functions : NameMap Function

namespace Program

/-- The version of program documents that is understood. -/
def supportedVersion : String := "tuna.ast@0.1.0"

/-- The global objects that may be referred to; none means any. -/
def declared (p : Program) : Option NameSet :=
  if p.globals.isEmpty then none else some p.globals

end Program

end StoredProcedure
