import RecordStore.Domain.Reader
import RecordStore.Text.Identifier

/-!
# Valid domains

The names of a valid domain are identifiers, and the source of an alias is a resource that is not an
alias itself. Resources are looked at in order of declaration, and the first fault is reported.
-/

namespace RecordStore

/-- Fail unless a name is an identifier. -/
def demandIdentifier (name : String) : Except SchemaError Unit :=
  if Text.isIdentifier name then .ok () else .error (.invalidIdentifier name)

namespace Domain

/-- What is wrong with a resource that takes `source` as its source, if anything is. -/
def sourceFault? (domain : Domain) (resource : Resource) (source : String) :
    Option DatasourceFault :=
  match domain.get? source with
  | none => some (.unknownSource source)
  | some target =>
    if !resource.fields.isEmpty then some (.declaresSchema source)
    else if target.isAlias then some (.sourceIsAlias source)
    else none

/-- The source of a resource, if it has one, is a resource with a table. -/
def checkSource (domain : Domain) (name : String) (resource : Resource) : Except SchemaError Unit :=
  match resource.source.bind (domain.sourceFault? resource) with
  | some fault => .error (.invalidDatasource name fault)
  | none => .ok ()

/-- The checks of one resource. -/
def checkResource (domain : Domain) (entry : String × Resource) : Except SchemaError Unit := do
  demandIdentifier entry.1
  entry.2.fields.keys.forM demandIdentifier
  domain.checkSource entry.1 entry.2

/-- Fail unless the domain is valid. -/
def check (domain : Domain) : Except SchemaError Unit := domain.entries.forM domain.checkResource

/-- Read a domain document and check the domain. -/
def load (text : String) : Except SchemaError Domain := do
  let domain ← (ofText text).mapError .load
  domain.check
  return domain

/-- Read a domain document from the bytes of a file, if there is one, and check the domain. -/
def loadBytes (content : Option ByteArray) : Except SchemaError Domain :=
  match content.bind String.fromUTF8? with
  | some text => load text
  | none => .error (.load .unreadable)

end Domain

end RecordStore
