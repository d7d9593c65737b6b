import ServiceInjection.Refactor

/-!
# Settings.Basic

The settings of a user or a workspace, and what they add to the built-in
knowledge.
-/

namespace ServiceInjection

structure Settings where
  /-- One step of indentation where a class gives no hint. -/
  indent : String := "  "
  strictServices : Bool := false
  /-- Additional parents and the roles of their subclasses. -/
  baseClassRoles : RoleMapping := []
  services : List ServiceEntry := []
  deriving Repr

namespace Settings

/-- The choices that a refactoring depends on. -/
def options (settings : Settings) : Options :=
  { indent := settings.indent, strictServices := settings.strictServices }

/-- The additional services by id. -/
def orderedServices (settings : Settings) : List ServiceEntry :=
  settings.services.mergeSort fun a b => decide (a.serviceId ≤ b.serviceId)

/-- The built-in directory with the additional services. -/
def directory (settings : Settings) : Directory :=
  Directory.builtin.insertAll settings.orderedServices

end Settings

end ServiceInjection
