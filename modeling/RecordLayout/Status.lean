import RecordLayout.Text.Basic

/-!
# Statuses

What an operation reports: a code and a message.

## Main definitions

* `StatusCode`: success, or a kind of failure.
* `Status`: a code with a message.
* `Status.render`: the text of a status.
-/

namespace RecordLayout

/-- Success, or a kind of failure. -/
inductive StatusCode
  /-- The operation succeeded. -/
  | ok
  /-- A failure of no particular kind. -/
  | error
  /-- Nothing has the name, or matches the line. -/
  | notFound
  /-- A value or a text does not fit where it is put. -/
  | invalidArgument
  /-- An option or a name is not allowed. -/
  | configError
  /-- A name is taken. -/
  | duplicateName
  /-- A declaration is malformed, or a reference or the nesting of schemas is. -/
  | schemaError
  /-- A result is not what it was meant to be. -/
  | internal
  deriving DecidableEq, Repr

/-- How the text of a status begins. -/
def StatusCode.label : StatusCode → Text
  | .ok => "OK"
  | .error => "Error"
  | .notFound => "NotFound"
  | .invalidArgument => "InvalidArgument"
  | .configError => "ConfigError"
  | .duplicateName => "DuplicateNameError"
  | .schemaError => "SchemaError"
  | .internal => "Internal"

/-- A code and a message. -/
structure Status where
  /-- Whether the operation succeeded, or how it failed. -/
  code : StatusCode
  /-- What there is to say about it. -/
  message : Text
  deriving DecidableEq, Repr

namespace Status

/-- Success, with nothing to say. -/
def success : Status := ⟨.ok, []⟩

/-- The status that is made for a code: success carries no message. -/
def make (code : StatusCode) (message : Text) : Status :=
  if code = .ok then success else ⟨code, message⟩

/-- Whether a status reports success. -/
def isOk (s : Status) : Bool := s.code = .ok

/-- The text of a status: its code, and its message if it has one. -/
def render (s : Status) : Text :=
  if s.message.isEmpty then s.code.label else s.code.label ++ ": " ++ s.message

theorem render_of_message_ne_nil {s : Status} (h : s.message ≠ []) :
    s.render = s.code.label ++ Text.ofString ": " ++ s.message := by
  simp [render, h]

end Status

end RecordLayout
