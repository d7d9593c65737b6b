/-!
# Call.Shortcut

The named helpers of the global `\Drupal` class that stand for one service each.
-/

namespace ServiceInjection

/-- A static helper that fetches a service. -/
structure Shortcut where
  method : String
  serviceId : String
  /-- The method to call on the service to get what the helper returns, unless the
  helper returns the service itself. -/
  accessor : Option String := none
  /-- Whether the arguments of the helper go to the accessor. A helper that does
  not pass them on stands for the service only when it is called without any. -/
  forwardsArguments : Bool := false
  deriving DecidableEq, Repr

namespace Shortcut

def all : List Shortcut :=
  [ ⟨"cache", "cache.default", none, false⟩,
    ⟨"config", "config.factory", some "get", true⟩,
    ⟨"configFactory", "config.factory", none, false⟩,
    ⟨"currentUser", "current_user", none, false⟩,
    ⟨"database", "database", none, false⟩,
    ⟨"destination", "redirect.destination", none, false⟩,
    ⟨"entityRepository", "entity.repository", none, false⟩,
    ⟨"entityTypeManager", "entity_type.manager", none, false⟩,
    ⟨"flood", "flood", none, false⟩,
    ⟨"formBuilder", "form_builder", none, false⟩,
    ⟨"httpClient", "http_client", none, false⟩,
    ⟨"keyValue", "keyvalue", some "get", true⟩,
    ⟨"keyValueExpirable", "keyvalue.expirable", some "get", true⟩,
    ⟨"languageManager", "language_manager", none, false⟩,
    ⟨"linkGenerator", "link_generator", none, false⟩,
    ⟨"lock", "lock", none, false⟩,
    ⟨"logger", "logger.factory", some "get", true⟩,
    ⟨"messenger", "messenger", none, false⟩,
    ⟨"moduleHandler", "module_handler", none, false⟩,
    ⟨"pathValidator", "path.validator", none, false⟩,
    ⟨"queue", "queue", some "get", true⟩,
    ⟨"request", "request_stack", some "getCurrentRequest", false⟩,
    ⟨"requestStack", "request_stack", none, false⟩,
    ⟨"routeMatch", "current_route_match", none, false⟩,
    ⟨"state", "state", none, false⟩,
    ⟨"theme", "theme.manager", none, false⟩,
    ⟨"time", "datetime.time", none, false⟩,
    ⟨"token", "token", none, false⟩,
    ⟨"translation", "string_translation", none, false⟩,
    ⟨"transliteration", "transliteration", none, false⟩,
    ⟨"typedDataManager", "typed_data_manager", none, false⟩,
    ⟨"urlGenerator", "url_generator", none, false⟩ ]

def find? (method : String) : Option Shortcut := all.find? (·.method == method)

end Shortcut

end ServiceInjection
