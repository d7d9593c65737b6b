/-!
# Command.Help

The texts that explain the command line. Lines are at most one hundred columns wide.
-/

namespace ServiceInjection

/-- What the user wants to know about. -/
inductive HelpTopic where
  /-- The program, at a glance. -/
  | summary
  | program
  | refactor
  | help
  deriving DecidableEq, Repr

namespace HelpTopic

def refactorAbout : String := "Print (or apply) the injection edits for one PHP file"

def helpAbout : String := "Print this message or the help of the given subcommand(s)"

/-- The commands of the program, below its usage. -/
def commandLines : List String :=
  ["Usage: drupal_di_lsp [COMMAND]",
   "",
   "Commands:",
   "  refactor  " ++ refactorAbout,
   "  help      " ++ helpAbout]

/-- The lines of an explanation. -/
def lines : HelpTopic → List String
  | .summary =>
    ["Language server that rewrites static \\Drupal service-locator calls into constructor " ++
       "dependency",
     "injection.",
     ""] ++ commandLines ++
    ["",
     "Options:",
     "  -h, --help     Print help (see more with '--help')",
     "  -V, --version  Print version"]
  | .program =>
    ["Rewrites static `\\Drupal` service calls into constructor injection.",
     "",
     "Without a subcommand the language server runs on stdin/stdout.",
     ""] ++ commandLines ++
    ["",
     "Options:",
     "  -h, --help",
     "          Print help (see a summary with '-h')",
     "",
     "  -V, --version",
     "          Print version"]
  | .refactor =>
    [refactorAbout,
     "",
     "Usage: drupal_di_lsp refactor [OPTIONS] <FILE>",
     "",
     "Arguments:",
     "  <FILE>  The PHP file to refactor",
     "",
     "Options:",
     "      --service <ID>     Service id to inject; repeatable.  Defaults to every service " ++
       "the class",
     "                         fetches statically",
     "      --role <ROLE>      Architectural role (`base-class` or `plugin-factory`).  " ++
       "Detected from the",
     "                         class declaration when omitted",
     "      --line <LINE>      One-based line inside the class to refactor.  Defaults to the " ++
       "first class",
     "                         in the file",
     "      --workspace <DIR>  Workspace root used for configuration and `*.services.yml` lookup",
     "      --write            Write the refactored file instead of printing the edits",
     "  -h, --help             Print help"]
  | .help =>
    [helpAbout,
     "",
     "Usage: drupal_di_lsp help [COMMAND]...",
     "",
     "Arguments:",
     "  [COMMAND]...  Print help for the subcommand(s)"]

def text (topic : HelpTopic) : String := String.join (topic.lines.map (· ++ "\n"))

end HelpTopic

end ServiceInjection
