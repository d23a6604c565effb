namespace SpallocServer

/-- The exceptions the server's own code and the Python operations in it raise. -/
inductive Error where
  | valueError (message : String)
  | typeError (message : String)
  | keyError
  | indexError
  | attributeError
  | assertionError
  | zeroDivisionError
  | overflowError (message : String)
  | runtimeError (message : String)
  | stopIteration
  | freeError (message : String)
  | osError (message : String)
  deriving DecidableEq, Repr

namespace Error

def Argument : Error → Prop
  | .valueError _ | .typeError _ | .assertionError | .overflowError _ => True
  | _ => False

end Error

end SpallocServer
