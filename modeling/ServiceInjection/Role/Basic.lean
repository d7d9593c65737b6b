/-!
# Role.Basic

The role of a class decides how services get into it. A class with a known base
class, such as a controller or a form, is built by `create(ContainerInterface)`;
a plugin is built by a factory that also receives the configuration, the id and
the definition of the plugin. `Conventions` says what each role requires.
-/

namespace ServiceInjection

inductive Role where
  | baseClass
  | pluginFactory
  /-- A role that services cannot be injected into. -/
  | other (tag : String)
  deriving DecidableEq, Repr

namespace Role

def ofTag (tag : String) : Role :=
  if ["base-class", "base_class", "controller", "form"].contains tag then .baseClass
  else if ["plugin-factory", "plugin_factory", "plugin"].contains tag then .pluginFactory
  else .other tag

def tag : Role → String
  | .baseClass => "base-class"
  | .pluginFactory => "plugin-factory"
  | .other tag => tag

end Role

/-- The base classes that are built from the container. -/
def baseClassParents : List String :=
  ["ControllerBase", "FormBase", "ConfigFormBase", "ConfirmFormBase", "EntityForm",
    "ContentEntityForm"]

def pluginParents : List String :=
  ["BlockBase", "PluginBase", "QueueWorkerBase", "ConditionPluginBase", "ActionBase",
    "ConfigurableActionBase", "ProcessPluginBase", "FilterBase"]

def containerInjectionInterface : String := "ContainerInjectionInterface"

def containerFactoryPluginInterface : String := "ContainerFactoryPluginInterface"

/-- A parameter that every constructor of a role starts with. -/
structure LeadingParam where
  declaration : String
  /-- The parameter as an argument. -/
  expression : String
  docType : String
  description : String
  deriving DecidableEq, Repr

/-- What a role requires of a class. -/
structure Conventions where
  name : String
  /-- The interface that tells the framework to call the factory. -/
  markerInterface : String
  /-- The parameters of the factory behind the container. -/
  factoryParams : List String
  leadingParams : List LeadingParam
  /-- The first statement of a new constructor. -/
  preamble : Option String
  /-- The base classes that already have the marker interface. -/
  markedParents : List String
  deriving DecidableEq, Repr

namespace Conventions

def baseClass : Conventions where
  name := "base-class"
  markerInterface := "Drupal\\Core\\DependencyInjection\\" ++ containerInjectionInterface
  factoryParams := []
  leadingParams := []
  preamble := none
  markedParents := baseClassParents

def pluginFactory : Conventions where
  name := "plugin-factory"
  markerInterface := "Drupal\\Core\\Plugin\\" ++ containerFactoryPluginInterface
  factoryParams := ["array $configuration", "$plugin_id", "$plugin_definition"]
  leadingParams :=
    [ ⟨"array $configuration", "$configuration", "array",
        "A configuration array containing information about the plugin instance."⟩,
      ⟨"$plugin_id", "$plugin_id", "string", "The plugin_id for the plugin instance."⟩,
      ⟨"$plugin_definition", "$plugin_definition", "mixed",
        "The plugin implementation definition."⟩ ]
  preamble := some "parent::__construct($configuration, $plugin_id, $plugin_definition);"
  markedParents := []

end Conventions

/-- The conventions of a role that services can be injected into. -/
def Role.conventions? : Role → Option Conventions
  | .baseClass => some .baseClass
  | .pluginFactory => some .pluginFactory
  | .other _ => none

end ServiceInjection
