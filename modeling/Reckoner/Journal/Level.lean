import Reckoner.Text.Quoted

/-!
# Levels

How weighty a journal entry is, as a number; five of the numbers have names. A journal shows the
entries from its own level on. A journal of level zero has none of its own and shows warnings.
-/

namespace Reckoner.Journal

open Reckoner.Text (quoted)

/-- The weight of an entry, or of the lightest entries that are shown. -/
abbrev Level := Int

namespace Level

/-- No level. -/
def unset : Level := 0

/-- Details of what the calculator does. -/
def debug : Level := 10

/-- Something the user should see. -/
def warning : Level := 30

/-- Something went wrong. -/
def error : Level := 40

/-- Levels by name. -/
def named : List (String × Level) :=
  [ ("CRITICAL", 50), ("FATAL", 50), ("ERROR", error), ("WARN", warning), ("WARNING", warning),
    ("INFO", 20), ("DEBUG", debug), ("NOTSET", unset) ]

/-- Levels by the name they are written with. -/
def names : List (Level × String) :=
  [ (50, "CRITICAL"), (error, "ERROR"), (warning, "WARNING"), (20, "INFO"), (debug, "DEBUG"),
    (unset, "NOTSET") ]

/-- How a level is written. -/
def text (level : Level) : String :=
  (names.lookup level).getD ("Level " ++ toString level)

/-- A letter in upper case, as far as it can be part of a level's name: besides the letters of
ASCII, the dotless i and the long s have such forms. -/
def upperLetter (c : Char) : Char :=
  if c = 'ı' then 'I' else if c = 'ſ' then 'S' else c.toUpper

/-- The level with a name, in whatever case it is given. -/
def ofName? (name : String) : Option Level :=
  named.lookup (String.ofList (name.toList.map upperLetter))

end Level

/-- How a level is asked for. -/
inductive LevelRequest where
  | default
  | name (text : String)
  | number (n : Int)
  deriving DecidableEq, Repr, Inhabited

/-- A level was asked for by a name that no level has. -/
inductive LevelError where
  | unknown (name : String)
  deriving DecidableEq, Repr, Inhabited

/-- The wording of a level error. -/
def LevelError.message : LevelError → String
  | .unknown name => "Unknown log level: " ++ quoted name

/-- The level that is asked for. An empty name and zero stand for the default. -/
def LevelRequest.resolve : LevelRequest → Except LevelError Level
  | .default | .name "" | .number 0 => .ok Level.warning
  | .number n => .ok n
  | .name text =>
    match Level.ofName? text with
    | some level => .ok level
    | none => .error (.unknown text)

/-- The level from which on entries are shown. -/
def Level.threshold (level : Level) : Level :=
  if level = unset then warning else level

end Reckoner.Journal
