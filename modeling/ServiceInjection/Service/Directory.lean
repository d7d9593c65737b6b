import ServiceInjection.Text.Names

/-!
# Service.Directory

The directory of known services: for each id the interface that a constructor
should ask for and the property that holds the service. Rows keep the order in
which their ids were first inserted, since the first row for an interface decides
which service a parameter of that type stands for.
-/

namespace ServiceInjection

/-- What is said about a service. Without a property name or a description, both
are derived from the id. -/
structure ServiceEntry where
  serviceId : String
  interface : String
  field : Option String := none
  description : Option String := none
  deriving DecidableEq, Repr

/-- A row of the directory. -/
structure ServiceRow where
  serviceId : String
  /-- The qualified name of the interface, without a backslash in front. -/
  interface : String
  field : String
  description : String
  deriving DecidableEq, Repr

namespace ServiceRow

def ofEntry (entry : ServiceEntry) : ServiceRow :=
  { serviceId := entry.serviceId
    interface := Text.unrooted entry.interface
    field := entry.field.getD (Text.camelCase entry.serviceId)
    description := entry.description.getD (Text.humanName entry.serviceId) }

/-- The interface without its namespace. -/
def shortName (row : ServiceRow) : String := Text.shortName row.interface

def importLine (row : ServiceRow) : String := "use " ++ row.interface ++ ";"

end ServiceRow

/-- A table of services with at most one row for an id. -/
structure Directory where
  rows : List ServiceRow := []
  deriving Repr

namespace Directory

/-- Replaces the row with the same id, or adds the row at the end. -/
def putRow (row : ServiceRow) : List ServiceRow → List ServiceRow
  | [] => [row]
  | other :: rest =>
    if other.serviceId == row.serviceId then row :: rest else other :: putRow row rest

def insert (directory : Directory) (entry : ServiceEntry) : Directory :=
  ⟨putRow (.ofEntry entry) directory.rows⟩

def insertAll (directory : Directory) (entries : List ServiceEntry) : Directory :=
  entries.foldl insert directory

def ofEntries (entries : List ServiceEntry) : Directory := ({} : Directory).insertAll entries

def lookup? (directory : Directory) (serviceId : String) : Option ServiceRow :=
  directory.rows.find? (·.serviceId == serviceId)

/-- The first row with the given interface, up to backslashes in front and the case
of ASCII letters. -/
def findByInterface? (directory : Directory) (interface : String) : Option ServiceRow :=
  directory.rows.find? (Text.sameName ·.interface (Text.unrooted interface))

def size (directory : Directory) : Nat := directory.rows.length

end Directory

end ServiceInjection
