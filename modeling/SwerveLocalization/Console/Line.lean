/-!
# The console

A notice is a line of text with a level. The console shows it with the time
since boot and with the level in its colour, unless the level is finer than
the one the console is set to.
-/

namespace SwerveLocalization

/-- How much a notice matters, the most important level first. -/
inductive Level
  | error
  | warn
  | info
  | debug
  | trace
deriving DecidableEq

namespace Level

/-- The place of a level, counted from the most important one. -/
def rank : Level → Nat
  | error => 1
  | warn => 2
  | info => 3
  | debug => 4
  | trace => 5

/-- The name of a level as the console shows it. -/
def label : Level → String
  | error => "ERROR"
  | warn => "WARN"
  | info => "INFO"
  | debug => "DEBUG"
  | trace => "TRACE"

/-- The colour number of a level on a terminal. -/
def colour : Level → Nat
  | error => 31
  | warn => 33
  | info => 34
  | debug => 36
  | trace => 37

end Level

/-- A line of text with its level. -/
structure Notice where
  level : Level
  text : String
deriving DecidableEq

/-- The time since boot. -/
structure Uptime where
  nanoseconds : Nat
deriving DecidableEq

namespace Uptime

/-- How many nanoseconds a second has. -/
def nanosecondsPerSecond : Nat := 1000000000

/-- A number of seconds and nanoseconds. -/
def ofParts (seconds nanoseconds : Nat) : Uptime := ⟨seconds * nanosecondsPerSecond + nanoseconds⟩

/-- Whole seconds. -/
def seconds (t : Uptime) : Nat := t.nanoseconds / nanosecondsPerSecond

/-- Whole milliseconds beyond the last whole second. -/
def milliseconds (t : Uptime) : Nat := t.nanoseconds % nanosecondsPerSecond / 1000000

/-- A natural number with at least `width` digits. -/
def padded (width n : Nat) : String :=
  let digits := toString n
  String.ofList (List.replicate (width - digits.length) '0') ++ digits

/-- Minutes, seconds and milliseconds; the minutes are not limited to an
hour. -/
def text (t : Uptime) : String :=
  padded 2 (t.seconds / 60) ++ ":" ++ padded 2 (t.seconds % 60) ++ ":" ++ padded 3 t.milliseconds

end Uptime

/-- A console. It shows levels up to its threshold, and nothing without
one. -/
structure Console where
  threshold : Option Level
deriving DecidableEq

namespace Console

/-- Whether notices of a level are shown. -/
def shows (c : Console) (l : Level) : Bool :=
  match c.threshold with
  | none => false
  | some finest => decide (l.rank ≤ finest.rank)

/-- A notice as it stands on the console. -/
def line (t : Uptime) (n : Notice) : String :=
  t.text ++ " \x1b[" ++ toString n.level.colour ++ "m[" ++ n.level.label ++ "]\x1b[0m " ++ n.text

/-- The lines that a list of notices adds to the console. -/
def lines (c : Console) (t : Uptime) (notices : List Notice) : List String :=
  (notices.filter fun n => c.shows n.level).map (line t)

end Console

end SwerveLocalization
