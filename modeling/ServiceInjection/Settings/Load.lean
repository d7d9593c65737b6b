import ServiceInjection.Settings.Decode
import ServiceInjection.Workspace.Files

/-!
# Settings.Load

Finding the settings: those of the workspace, else those of the user, else the
defaults. A settings file that is there but cannot be used means the defaults.
-/

namespace ServiceInjection.Settings

def fileName : String := ".drupal-di.toml"

/-- The settings in a file that was read; none if there is no file. -/
def ofFile : Except ReadError String → Option Settings
  | .ok text => some ((parse text).getD {})
  | .error .notFound => none
  | .error .notADirectory => none
  | .error .isADirectory => none
  | .error _ => some {}

/-- The settings for a workspace, if there is one. -/
def load {m : Type → Type} [Monad m] (files : Files m) (root : Option String) : m Settings := do
  let workspace ← match root with
    | some root => do pure (ofFile (← files.read (root ++ "/" ++ fileName)))
    | none => pure none
  match workspace with
  | some settings => return settings
  | none => return (ofFile (← files.readUserSettings)).getD {}

end ServiceInjection.Settings
