import Offside.Command.Arguments
import Offside.Settings.Standard

/-!
# The command that runs

* `Standard.toolkit`: libraries to run the command with;
* `runCommand`: the answer to all arguments with them.
-/
namespace Offside

/-- Libraries to run the command with, where `files` gives what a file holds. -/
def Standard.toolkit (files : Text → Option Text) : Toolkit where
  parse := Invocation.parse
  settings := Standard.library files
  pretty v := .ok (v.render 0)

/-- The answer to all arguments, where `files` gives what a file holds. -/
def runCommand (files : Text → Option Text) (input : Option Text) (args : List Text) : Outcome :=
  (Standard.toolkit files).run input args

namespace Request

/-- The names under which the settings file is looked for, in order. -/
def fileNames (r : Request) : List Text := Standard.fileNames (r.config?.getD localFile)

/-- Whether the input has to be read: only if there are settings and no code. -/
def needsInput (r : Request) (T : Toolkit) : Bool :=
  r.givenCode?.isNone && (r.settings T.settings).toOption.isSome

end Request

end Offside
