import Timetable.Text.Numeral

/-!
# Command line options

The arguments of the program are read from left to right.  Long options start with two
hyphens and take a value after an equals sign or from the next argument.  Short ones start
with one hyphen and may be written together; the value of a short option is the rest of its
argument or the next argument.  After a lone pair of hyphens every argument is taken as it
is.

An option other than `-v` may be given once.  A value that starts with a hyphen has to be
attached to its option.
-/

namespace Timetable
namespace CommandLine

open Text (signed?)

/-- What the arguments ask for. -/
structure Options where
  expression : Option String
  cron : Bool
  number : Option Nat
  start : Option String
  json : Bool
  check : Bool
  parse : Bool
  canonical : Bool
  verbosity : Nat
  deriving DecidableEq

/-- No argument given. -/
def Options.none : Options :=
  ⟨.none, false, .none, .none, false, false, false, false, 0⟩

/-- Why no options come out of the arguments. -/
inductive Stop where
  /-- The arguments are not understood. -/
  | usage
  | help
  | version
  deriving DecidableEq

/-- An option that takes no value. -/
inductive Switch where
  | cron
  | json
  | check
  | parse
  | canonical
  | verbose
  | help
  | version
  deriving DecidableEq

/-- An option that takes a value. -/
inductive Setting where
  | number
  | start
  deriving DecidableEq

/-- What an option's name stands for. -/
inductive Name where
  | switch (s : Switch)
  | setting (s : Setting)
  deriving DecidableEq

/-- The option with a long name. -/
def longName? (name : List Char) : Option Name :=
  match String.ofList name with
  | "cron" => some (.switch .cron)
  | "json" => some (.switch .json)
  | "check" => some (.switch .check)
  | "parse" => some (.switch .parse)
  | "canonical" => some (.switch .canonical)
  | "verbose" => some (.switch .verbose)
  | "help" => some (.switch .help)
  | "version" => some (.switch .version)
  | "n" => some (.setting .number)
  | "from" => some (.setting .start)
  | _ => none

/-- The option with a name of one letter. -/
def shortName? (letter : Char) : Option Name :=
  match letter with
  | 'v' => some (.switch .verbose)
  | 'h' => some (.switch .help)
  | 'V' => some (.switch .version)
  | 'n' => some (.setting .number)
  | _ => none

namespace Options

/-- Turn a flag on that is still off. -/
def raise (flag : Bool) (raised : Options) : Except Stop Options :=
  if flag then .error .usage else .ok raised

/-- Give an option without a value. -/
def giveSwitch (o : Options) : Switch → Except Stop Options
  | .cron => raise o.cron { o with cron := true }
  | .json => raise o.json { o with json := true }
  | .check => raise o.check { o with check := true }
  | .parse => raise o.parse { o with parse := true }
  | .canonical => raise o.canonical { o with canonical := true }
  | .verbose => .ok { o with verbosity := o.verbosity + 1 }
  | .help => .error .help
  | .version => .error .version

/-- Give an option with its value. -/
def giveSetting (o : Options) (s : Setting) (value : List Char) : Except Stop Options :=
  match s with
  | .number =>
      match signed? 64 value with
      | some n =>
          if 0 ≤ n ∧ n < (Nat.pow 2 32 : Int) then
            raise o.number.isSome { o with number := some n.toNat }
          else
            .error .usage
      | .none => .error .usage
  | .start => raise o.start.isSome { o with start := some (String.ofList value) }

/-- Give the argument that is no option. -/
def giveExpression (o : Options) (value : List Char) : Except Stop Options :=
  raise o.expression.isSome { o with expression := some (String.ofList value) }

/-- Give an option by its long name, with the value that is attached to it if there is one.
The result also holds the setting that still waits for its value. -/
def giveLong (o : Options) (name : List Char) (attached : Option (List Char)) :
    Except Stop (Options × Option Setting) :=
  match longName? name, attached with
  | some (.switch s), .none => (o.giveSwitch s).map fun o => (o, .none)
  | some (.setting s), some value => (o.giveSetting s value).map fun o => (o, .none)
  | some (.setting s), .none => .ok (o, some s)
  | _, _ => .error .usage

/-- Give the options of one letter each that are written together. -/
def giveShort (o : Options) : List Char → Except Stop (Options × Option Setting)
  | [] => .ok (o, .none)
  | letter :: rest =>
      match shortName? letter with
      | some (.switch s) => (o.giveSwitch s).bind fun o => o.giveShort rest
      | some (.setting s) =>
          match rest with
          | [] => .ok (o, some s)
          | '=' :: value => (o.giveSetting s value).map fun o => (o, .none)
          | value => (o.giveSetting s value).map fun o => (o, .none)
      | .none => .error .usage

/-- Give one argument.  It is the value of a waiting setting unless it looks like an
option. -/
def giveArgument (o : Options) (waiting : Option Setting) (argument : List Char) :
    Except Stop (Options × Option Setting) :=
  match argument, waiting with
  | '-' :: _ :: _, some _ => .error .usage
  | '-' :: '-' :: long, .none =>
      o.giveLong (long.takeWhile (· ≠ '='))
        (if long.contains '=' then some ((long.dropWhile (· ≠ '=')).drop 1) else .none)
  | '-' :: letter :: letters, .none => o.giveShort (letter :: letters)
  | value, some s => (o.giveSetting s value).map fun o => (o, .none)
  | value, .none => (o.giveExpression value).map fun o => (o, .none)

/-- Give the remaining arguments. -/
def giveAll (o : Options) (waiting : Option Setting) :
    List (List Char) → Except Stop Options
  | [] => if waiting.isSome then .error .usage else .ok o
  | ['-', '-'] :: rest =>
      if waiting.isSome then .error .usage else rest.foldlM giveExpression o
  | argument :: rest =>
      (o.giveArgument waiting argument).bind fun (o, waiting) => o.giveAll waiting rest

end Options

/-- Read the arguments of the program. -/
def readOptions (arguments : List String) : Except Stop Options :=
  Options.none.giveAll .none (arguments.map String.toList)

end CommandLine
end Timetable
