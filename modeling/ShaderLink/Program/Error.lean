import ShaderLink.LinkError

/-!
# Why programs fail

The causes for which an operation on a program is refused: those of linking and editing, and those
that have to do with hooks and with the device.
-/

namespace ShaderLink

/-- Why an operation on a program was refused. -/
inductive ProgramError where
  /-- A failure of linking or editing. -/
  | link (cause : LinkError)
  /-- A hook that neither stage declares. -/
  | unknownHook (hook : String)
  /-- A hook that is declared twice. -/
  | duplicateHook (hook : String)
  /-- An attached object whose types are not those of the hook's prototype. -/
  | hookMismatch (hook expected found : String)
  /-- Callbacks for a hook that something other than a chain is attached to. -/
  | notAChain (hook : String)
  /-- A refusal of the device. -/
  | device (reason : String)
deriving DecidableEq, Repr

namespace ProgramError

/-- What an error says. -/
def message : ProgramError → String
  | link cause => cause.message
  | unknownHook hook => "no function prototype `" ++ hook ++ "` in the program"
  | duplicateHook hook => "prototype `" ++ hook ++ "` is declared more than once"
  | hookMismatch hook expected found =>
    "hook `" ++ hook ++ "` is `" ++ expected ++ "`, cannot attach `" ++ found ++ "`"
  | notAChain hook => "hook `" ++ hook ++ "` is not attached to a function chain"
  | device reason => "backend error: " ++ reason

end ProgramError

end ShaderLink
