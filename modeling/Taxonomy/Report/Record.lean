import Taxonomy.Report.Journal

/-!
# Records

A record is a report as it is written: a level, a message, further fields, and the threshold that
decides whether it is written at all. Notices become records; programs may also write records of
their own.

A record passes a limit if its threshold is at most the limit (`Record.passes_iff`), so lowering the
limit can only drop records and never changes or reorders the rest.
-/

namespace Taxonomy

/-- The written name of a level, five columns wide. -/
def Level.label : Level → String
  | error => "ERROR"
  | warn => " WARN"
  | info => " INFO"
  | debug => "DEBUG"
  | trace => "TRACE"

/-- The value of a field of a record. -/
inductive FieldValue where
  | flag (value : Bool)
  | integer (value : Int)
  | text (value : String)

/-- The written form of a field's value; text is quoted. -/
def FieldValue.display : FieldValue → String
  | flag value => toString value
  | integer value => toString value
  | text value => Text.quoted value

/-- A report as it is written. -/
structure Record where
  level : Level
  /-- Whether the message is marked as critical. -/
  critical : Bool := false
  /-- The least limit the record passes; without one it passes every limit. -/
  threshold : Option Nat := none
  message : String
  /-- What is written after the message. -/
  fields : List (String × FieldValue) := []

namespace Record

/-- The greatest threshold there is. -/
def maxThreshold : Nat := 255

/-- A number used as a threshold saturates at both ends of the range. -/
def thresholdOfInt (value : Int) : Nat := min value.toNat maxThreshold

/-- Whether a record is written under a limit. -/
def passes (limit : Nat) (record : Record) : Bool :=
  record.threshold.all fun threshold ↦ threshold ≤ limit

theorem passes_iff {limit : Nat} {record : Record} :
    record.passes limit ↔ ∀ t, record.threshold = some t → t ≤ limit := by
  cases h : record.threshold <;> simp [passes, h]

/-- The text of a record. -/
def text (record : Record) : String :=
  let mark := if record.critical then "[CRITICAL] " else ""
  let fields := record.fields.map fun (name, value) ↦ " " ++ name ++ "=" ++ value.display
  record.level.label ++ " " ++ mark ++ record.message ++ String.join fields

/-- The record of a notice. -/
def ofNotice (spelling : Spelling) (describe : HookId → String) (notice : Notice) : Record where
  level := notice.level
  threshold := some notice.threshold
  message := notice.message spelling describe

/-- The lines that records leave under a limit; a message may take several. -/
def lines (limit : Nat) (records : List Record) : List String :=
  (records.filter (·.passes limit)).flatMap fun record ↦ record.text.splitOn "\n"

end Record

end Taxonomy
