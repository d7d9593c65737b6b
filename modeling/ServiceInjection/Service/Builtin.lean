import ServiceInjection.Service.Directory

/-!
# Service.Builtin

The services that every directory starts from: those of the framework that code
fetches most often.
-/

namespace ServiceInjection.Directory

/-- What is known of the services of the framework. -/
def builtinEntries : List ServiceEntry :=
  [ ⟨"access_manager", "Drupal\\Core\\Access\\AccessManagerInterface",
      none, none⟩,
    ⟨"cache.default", "Drupal\\Core\\Cache\\CacheBackendInterface",
      some "cache", some "default cache backend"⟩,
    ⟨"cache.render", "Drupal\\Core\\Cache\\CacheBackendInterface",
      some "renderCache", some "render cache backend"⟩,
    ⟨"cache_tags.invalidator", "Drupal\\Core\\Cache\\CacheTagsInvalidatorInterface",
      none, some "cache tags invalidator"⟩,
    ⟨"class_resolver", "Drupal\\Core\\DependencyInjection\\ClassResolverInterface",
      none, none⟩,
    ⟨"config.factory", "Drupal\\Core\\Config\\ConfigFactoryInterface",
      some "configFactory", some "config factory"⟩,
    ⟨"config.typed", "Drupal\\Core\\Config\\TypedConfigManagerInterface",
      some "typedConfigManager", some "typed config manager"⟩,
    ⟨"csrf_token", "Drupal\\Core\\Access\\CsrfTokenGenerator",
      some "csrfToken", some "CSRF token generator"⟩,
    ⟨"current_route_match", "Drupal\\Core\\Routing\\RouteMatchInterface",
      some "routeMatch", some "current route match"⟩,
    ⟨"current_user", "Drupal\\Core\\Session\\AccountProxyInterface",
      some "currentUser", some "current user"⟩,
    ⟨"database", "Drupal\\Core\\Database\\Connection",
      some "database", some "database connection"⟩,
    ⟨"date.formatter", "Drupal\\Core\\Datetime\\DateFormatterInterface",
      some "dateFormatter", some "date formatter"⟩,
    ⟨"datetime.time", "Drupal\\Component\\Datetime\\TimeInterface",
      some "time", some "time service"⟩,
    ⟨"email.validator", "Drupal\\Component\\Utility\\EmailValidatorInterface",
      some "emailValidator", some "email validator"⟩,
    ⟨"entity.form_builder", "Drupal\\Core\\Entity\\EntityFormBuilderInterface",
      some "entityFormBuilder", some "entity form builder"⟩,
    ⟨"entity.repository", "Drupal\\Core\\Entity\\EntityRepositoryInterface",
      some "entityRepository", some "entity repository"⟩,
    ⟨"entity_display.repository", "Drupal\\Core\\Entity\\EntityDisplayRepositoryInterface",
      some "entityDisplayRepository", some "entity display repository"⟩,
    ⟨"entity_field.manager", "Drupal\\Core\\Entity\\EntityFieldManagerInterface",
      some "entityFieldManager", some "entity field manager"⟩,
    ⟨"entity_type.bundle.info", "Drupal\\Core\\Entity\\EntityTypeBundleInfoInterface",
      some "entityTypeBundleInfo", some "entity type bundle info"⟩,
    ⟨"entity_type.manager", "Drupal\\Core\\Entity\\EntityTypeManagerInterface",
      some "entityTypeManager", some "entity type manager"⟩,
    ⟨"event_dispatcher", "Symfony\\Contracts\\EventDispatcher\\EventDispatcherInterface",
      some "eventDispatcher", some "event dispatcher"⟩,
    ⟨"extension.list.module", "Drupal\\Core\\Extension\\ModuleExtensionList",
      some "moduleExtensionList", some "module extension list"⟩,
    ⟨"file_system", "Drupal\\Core\\File\\FileSystemInterface",
      some "fileSystem", some "file system"⟩,
    ⟨"file_url_generator", "Drupal\\Core\\File\\FileUrlGeneratorInterface",
      some "fileUrlGenerator", some "file URL generator"⟩,
    ⟨"flood", "Drupal\\Core\\Flood\\FloodInterface",
      some "flood", some "flood control"⟩,
    ⟨"form_builder", "Drupal\\Core\\Form\\FormBuilderInterface",
      some "formBuilder", some "form builder"⟩,
    ⟨"http_client", "GuzzleHttp\\ClientInterface",
      some "httpClient", some "HTTP client"⟩,
    ⟨"keyvalue", "Drupal\\Core\\KeyValueStore\\KeyValueFactoryInterface",
      some "keyValueFactory", some "key value factory"⟩,
    ⟨"keyvalue.expirable", "Drupal\\Core\\KeyValueStore\\KeyValueExpirableFactoryInterface",
      some "keyValueExpirableFactory", some "expirable key value factory"⟩,
    ⟨"language_manager", "Drupal\\Core\\Language\\LanguageManagerInterface",
      some "languageManager", some "language manager"⟩,
    ⟨"link_generator", "Drupal\\Core\\Utility\\LinkGeneratorInterface",
      some "linkGenerator", some "link generator"⟩,
    ⟨"lock", "Drupal\\Core\\Lock\\LockBackendInterface",
      some "lock", some "lock backend"⟩,
    ⟨"logger.factory", "Drupal\\Core\\Logger\\LoggerChannelFactoryInterface",
      some "loggerFactory", some "logger channel factory"⟩,
    ⟨"menu.link_tree", "Drupal\\Core\\Menu\\MenuLinkTreeInterface",
      some "menuLinkTree", some "menu link tree"⟩,
    ⟨"messenger", "Drupal\\Core\\Messenger\\MessengerInterface",
      some "messenger", some "messenger"⟩,
    ⟨"module_handler", "Drupal\\Core\\Extension\\ModuleHandlerInterface",
      some "moduleHandler", some "module handler"⟩,
    ⟨"password_generator", "Drupal\\Core\\Password\\PasswordGeneratorInterface",
      some "passwordGenerator", some "password generator"⟩,
    ⟨"path.current", "Drupal\\Core\\Path\\CurrentPathStack",
      some "currentPath", some "current path stack"⟩,
    ⟨"path.validator", "Drupal\\Core\\Path\\PathValidatorInterface",
      some "pathValidator", some "path validator"⟩,
    ⟨"path_alias.manager", "Drupal\\path_alias\\AliasManagerInterface",
      some "aliasManager", some "path alias manager"⟩,
    ⟨"plugin.manager.block", "Drupal\\Core\\Block\\BlockManagerInterface",
      some "blockManager", some "block plugin manager"⟩,
    ⟨"plugin.manager.mail", "Drupal\\Core\\Mail\\MailManagerInterface",
      some "mailManager", some "mail manager"⟩,
    ⟨"queue", "Drupal\\Core\\Queue\\QueueFactory",
      some "queueFactory", some "queue factory"⟩,
    ⟨"redirect.destination", "Drupal\\Core\\Routing\\RedirectDestinationInterface",
      some "redirectDestination", some "redirect destination"⟩,
    ⟨"renderer", "Drupal\\Core\\Render\\RendererInterface",
      some "renderer", some "renderer"⟩,
    ⟨"request_stack", "Symfony\\Component\\HttpFoundation\\RequestStack",
      some "requestStack", some "request stack"⟩,
    ⟨"router.admin_context", "Drupal\\Core\\Routing\\AdminContext",
      some "adminContext", some "admin context"⟩,
    ⟨"serializer", "Symfony\\Component\\Serializer\\SerializerInterface",
      some "serializer", some "serializer"⟩,
    ⟨"state", "Drupal\\Core\\State\\StateInterface",
      some "state", some "state"⟩,
    ⟨"string_translation", "Drupal\\Core\\StringTranslation\\TranslationInterface",
      some "stringTranslation", some "string translation"⟩,
    ⟨"theme.manager", "Drupal\\Core\\Theme\\ThemeManagerInterface",
      some "themeManager", some "theme manager"⟩,
    ⟨"theme_handler", "Drupal\\Core\\Extension\\ThemeHandlerInterface",
      some "themeHandler", some "theme handler"⟩,
    ⟨"token", "Drupal\\Core\\Utility\\Token",
      some "token", some "token service"⟩,
    ⟨"transliteration", "Drupal\\Component\\Transliteration\\TransliterationInterface",
      some "transliteration", some "transliteration"⟩,
    ⟨"typed_data_manager", "Drupal\\Core\\TypedData\\TypedDataManagerInterface",
      some "typedDataManager", some "typed data manager"⟩,
    ⟨"url_generator", "Drupal\\Core\\Routing\\UrlGeneratorInterface",
      some "urlGenerator", some "URL generator"⟩,
    ⟨"user.data", "Drupal\\user\\UserDataInterface",
      some "userData", some "user data"⟩ ]

def builtin : Directory := ofEntries builtinEntries

end ServiceInjection.Directory
