import Placeholder.Text
/-!
Everything that can go wrong, as causes. A failure has a diagnostic code, a message and, for the
ones a user can mend, a line of help; each of the three is one function. Only a sum that overflows is
no diagnosis: it breaks the program off. A failure can travel inside an I/O failure and be taken out
again: `ofIo_toIo` says that nothing is lost on the way unless the failure is itself an I/O failure that
carries another one.
-/
namespace Placeholder

/-- What kind of I/O failure it is. -/
inductive IoKind where
  | notFound
  | permissionDenied
  | unexpectedEnd
  | isDirectory
  | notDirectory
  | invalidName
  | invalidData
  | invalidInput
  | other
deriving DecidableEq, Repr

/-- The words for an I/O failure of which only the kind is known. -/
def IoKind.description : IoKind → String
  | notFound => "entity not found"
  | permissionDenied => "permission denied"
  | unexpectedEnd => "unexpected end of file"
  | isDirectory => "is a directory"
  | notDirectory => "not a directory"
  | invalidName => "invalid filename"
  | invalidData => "invalid data"
  | invalidInput => "invalid input parameter"
  | other => "other error"

/-- A refusal of the operating system. -/
inductive SystemFault where
  | noEntry
  | isDirectory
  | notDirectory
  | nameTooLong
deriving DecidableEq, Repr

namespace SystemFault

def kind : SystemFault → IoKind
  | noEntry => .notFound
  | isDirectory => .isDirectory
  | notDirectory => .notDirectory
  | nameTooLong => .invalidName

def description : SystemFault → String
  | noEntry => "No such file or directory (os error 2)"
  | isDirectory => "Is a directory (os error 21)"
  | notDirectory => "Not a directory (os error 20)"
  | nameTooLong => "File name too long (os error 36)"

end SystemFault

/-- The formats a data file can have. -/
inductive DataFormat where
  | json
  | toml
  | yaml
deriving DecidableEq, Repr

def DataFormat.name : DataFormat → String
  | json => "JSON"
  | toml => "TOML"
  | yaml => "YAML"

mutual

/-- Why filtering, or the work before it, stops. -/
inductive Failure where
  | io (failure : IoFailure)
  | emptyDelimiter
  | missingOpening (spec : Text)
  | missingClosing (spec : Text)
  | emptyEscape
  | lookup (expression reason : Text)
  | invalidUtf8 (offset : Nat)
  | invalidMark
  | poisoned
  | configuration
  | unreadableData (path : Text) (failure : IoFailure)
  | malformedData (path : Text) (format : DataFormat)
  | unconvertibleNumber (path : Text) (number : Text)
  | unsupportedFormat (format : Text)
  | malformedProperty (path : Text) (line : Nat) (digits : Text)
  | invalidDefinition (definition : Text)
  /-- A sum of lengths has more than sixty-four bits. -/
  | overflow
deriving DecidableEq, Repr

/-- A failed read, write or look at the file system. It may carry a failure of another layer. -/
inductive IoFailure where
  | ofKind (kind : IoKind)
  | system (fault : SystemFault)
  | described (kind : IoKind) (text : Text)
  | carrying (kind : IoKind) (failure : Failure)
deriving DecidableEq, Repr

end

/-- Reading text from bytes that are not UTF-8. -/
def IoFailure.notText : IoFailure :=
  .described .invalidData "stream did not contain valid UTF-8".toList

def IoFailure.zeroInName : IoFailure :=
  .described .invalidInput "file name contained an unexpected NUL byte".toList

def IoFailure.kind : IoFailure → IoKind
  | ofKind kind => kind
  | system fault => fault.kind
  | described kind _ => kind
  | carrying kind _ => kind

namespace Failure

def code? : Failure → Option String
  | io _ => some "interpol::io_error"
  | emptyDelimiter => some "interpol::empty_delimiter"
  | missingOpening _ => some "interpol::missing_begin_token"
  | missingClosing _ => some "interpol::missing_end_token"
  | emptyEscape => some "interpol::empty_escape_string"
  | lookup _ _ => some "interpol::value_source"
  | invalidUtf8 _ => some "interpol::invalid_utf8"
  | invalidMark => some "interpol::invalid_mark"
  | poisoned => some "interpol::poisoned"
  | configuration => some "interpol::config_parse"
  | unreadableData _ _ => some "interpol::data_file"
  | malformedData _ _ => some "interpol::data_file"
  | unconvertibleNumber _ _ => some "interpol::data_file"
  | unsupportedFormat _ => some "interpol::unsupported_format"
  | malformedProperty _ _ _ => some "interpol::property_file"
  | invalidDefinition _ => some "interpol::invalid_property_argument"
  | overflow => none

/-- The exit code of a run that ends with this failure. -/
def exitCode : Failure → UInt8
  | overflow => 101
  | _ => 2

def help : Failure → Option String
  | emptyDelimiter =>
    some "use `BEGIN*END` (for example `$\x7b*\x7d`) or a symmetric token such as `@`"
  | missingOpening _ => some "put the begin token before the `*`, for example `$\x7b*\x7d`"
  | missingClosing _ => some "put the end token after the `*`, for example `$\x7b*\x7d`"
  | emptyEscape => some "omit the escape string to disable escaping"
  | configuration => some "check that interpol.toml is valid TOML"
  | unsupportedFormat _ => some "supported formats: json, toml, yaml, yml"
  | invalidDefinition _ => some "properties are defined as `KEY=VALUE`"
  | _ => none

def quoted (text : Text) : String :=
  "`" ++ String.ofList text ++ "`"

/-- The first part of every message about a data file. -/
def dataFile (path : Text) (reason : String) : String :=
  "failed to load data file " ++ quoted path ++ ": " ++ reason

end Failure

mutual

def Failure.message : Failure → String
  | .io failure => failure.message
  | .emptyDelimiter => "delimiter specification is empty"
  | .missingOpening spec => "delimiter specification " ++ Failure.quoted spec ++ " has no begin token"
  | .missingClosing spec => "delimiter specification " ++ Failure.quoted spec ++ " has no end token"
  | .emptyEscape => "escape string must not be empty"
  | .lookup expression reason =>
    "failed to resolve " ++ Failure.quoted expression ++ ": " ++ String.ofList reason
  | .invalidUtf8 offset => "input is not valid UTF-8 at byte offset " ++ toString offset
  | .invalidMark => "cannot reset: the source is not marked or the mark was invalidated"
  | .poisoned => "the reader failed earlier and can no longer be used"
  | .configuration => "failed to parse config file: not the expected TOML document"
  | .unreadableData path failure => Failure.dataFile path failure.message
  | .malformedData path format => Failure.dataFile path ("not a " ++ format.name ++ " document")
  | .unconvertibleNumber path number =>
    Failure.dataFile path ("unconvertible float value: " ++ String.ofList number)
  | .unsupportedFormat format => "unsupported data file format: " ++ Failure.quoted format
  | .malformedProperty path line digits =>
    "malformed property file " ++ Failure.quoted path ++ " at line " ++ toString line ++
      ": malformed \\u escape " ++ Failure.quoted ('\\' :: 'u' :: digits)
  | .invalidDefinition definition => "invalid property definition: " ++ Failure.quoted definition
  | .overflow => "attempt to add with overflow"

def IoFailure.message : IoFailure → String
  | .ofKind kind => kind.description
  | .system fault => fault.description
  | .described _ text => String.ofList text
  | .carrying _ failure => failure.message

end

namespace Failure

def ofIo : IoFailure → Failure
  | .carrying _ failure => failure
  | failure => .io failure

def toIo : Failure → IoFailure
  | io failure => failure
  | failure => .carrying .other failure

theorem ofIo_toIo {failure : Failure}
    (h : ∀ kind inner, failure ≠ .io (.carrying kind inner)) : ofIo (toIo failure) = failure := by
  cases failure with
  | io failure =>
    cases failure with
    | carrying kind inner => exact absurd rfl (h kind inner)
    | _ => rfl
  | _ => rfl

end Failure

end Placeholder
