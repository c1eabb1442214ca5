import LemonScript.Text.UpperCase
/-!
# Log levels

A level is named by its word, by the first letter of it, or by a number, in any case.
-/

namespace LemonScript

inductive LogLevel
  | critical
  | error
  | warning
  | notice
  | info
  | debug
  | trace
deriving Repr, DecidableEq

namespace LogLevel

def names : List (LogLevel × List String) :=
  [(critical, ["CRITICAL", "C"]), (error, ["ERROR", "0", "E"]), (warning, ["WARNING", "1", "W"]),
   (notice, ["NOTICE", "2", "N"]), (info, ["INFO", "3", "I"]), (debug, ["DEBUG", "4", "D"]),
   (trace, ["TRACE", "5", "T"])]

def ofName? (name : String) : Option LogLevel :=
  (names.find? fun (_, words) => words.contains (uppered name)).map Prod.fst

end LogLevel

end LemonScript
