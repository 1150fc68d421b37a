import StyleLift.CommandLine.Manual

/-!
# Reading the command line

Words that start with one or two hyphens are options, and after a lone `--` no word is one.  A
value follows its option as the next word, after `=`, or, for an option of one letter, directly.
A word that looks like an option is never taken as the value of the option before it.

An option with a value only counts once the next option or argument is understood, or the words
end.  So a word that is not understood at all is reported before a value that is missing, empty
or given twice.
-/

namespace StyleLift.CommandLine

/-- What is wrong with a command line. -/
inductive Misuse where
  /-- A word that nothing is waiting for. -/
  | unknownArgument
  /-- A word where a command should be. -/
  | unknownCommand
  /-- An option without its value, or an empty directory. -/
  | missingValue
  /-- A value for an option that takes none. -/
  | unexpectedValue
  /-- An option given twice. -/
  | repeatedOption
  deriving DecidableEq, Repr

/-- Why the words of a command line are not read to their end. -/
inductive Interruption where
  | misuse (what : Misuse)
  | help (manual : Manual)
  | version
  deriving DecidableEq, Repr

/-- The values and switches that a command was given. -/
structure Values where
  slots : List (Slot × Text) := []
  switches : List Switch := []
  deriving DecidableEq, Repr

namespace Values

/-- The value of a slot. -/
def get? (values : Values) (slot : Slot) : Option Text := values.slots.lookup slot

/-- Whether a switch is on. -/
def isOn (values : Values) (switch : Switch) : Bool := values.switches.contains switch

/-- Fills a slot that is still empty.  A directory has to have a name. -/
def fill (values : Values) (slot : Slot) (value : Text) : Except Misuse Values :=
  if (values.get? slot).isSome then .error .repeatedOption
  else if slot = .directory && value.isEmpty then .error .missingValue
  else .ok { values with slots := (slot, value) :: values.slots }

/-- Turns on a switch that is still off. -/
def turnOn (values : Values) (switch : Switch) : Except Misuse Values :=
  if values.isOn switch then .error .repeatedOption
  else .ok { values with switches := switch :: values.switches }

end Values

/-- How far the words of a command have been read. -/
structure State where
  values : Values := {}
  /-- The last option or argument that takes a value, and the value once it is there. -/
  pending : Option (Slot × Option Text) := none
  /-- A lone `--` has been read. -/
  onlyArguments : Bool := false
  /-- The directory has been read. -/
  hasDirectory : Bool := false

namespace State

/-- Makes the pending value count. -/
def settle (state : State) : Except Misuse State :=
  match state.pending with
  | none => .ok state
  | some (_, none) => .error .missingValue
  | some (slot, some value) =>
    (state.values.fill slot value).map fun values => { state with values, pending := none }

/-- Waits for the value of a slot, or takes it if it is there. -/
def expect (state : State) (slot : Slot) (value : Option Text) : Except Misuse State := do
  let state ← state.settle
  match value with
  | none => .ok { state with pending := some (slot, none) }
  | some value => .ok { state with values := ← state.values.fill slot value }

/-- Turns on a switch. -/
def turnOn (state : State) (switch : Switch) : Except Misuse State := do
  let state ← state.settle
  .ok { state with values := ← state.values.turnOn switch }

end State

/-- Lets a misuse interrupt the reading. -/
def orInterrupt {α : Type} (r : Except Misuse α) : Except Interruption α := r.mapError .misuse

/-- Carries out an option that was given with or without an attached value. -/
def applyOption (manual : Manual) (spec : Spec) (value : Option Text) (state : State) :
    Except Interruption State :=
  match spec.effect, value with
  | .take slot _, value => orInterrupt (state.expect slot value)
  | _, some _ => .error (.misuse .unexpectedValue)
  | .turnOn switch, none => orInterrupt (state.turnOn switch)
  | .showHelp, none => do
    let _ ← orInterrupt state.settle
    .error (.help manual)
  | .showVersion, none => do
    let _ ← orInterrupt state.settle
    .error .version

/-- Reads the option that two hyphens start. -/
def readLong (manual : Manual) (body : Text) (state : State) : Except Interruption State :=
  let (word, value) :=
    match Text.splitFirst? '=' body with
    | some (word, value) => (word, some value)
    | none => (body, none)
  match manual.specs.find? fun spec => spec.long == word with
  | some spec => applyOption manual spec value state
  | none => .error (.misuse .unknownArgument)

/-- Reads the options of one letter each that a hyphen starts.  The first that takes a value
takes the rest, without a leading `=`. -/
def readShort (manual : Manual) (state : State) : Text → Except Interruption State
  | [] => .ok state
  | c :: rest =>
    match manual.specs.find? fun spec => spec.short == some c with
    | none => .error (.misuse .unknownArgument)
    | some spec =>
      match spec.effect with
      | .take _ _ =>
        let value :=
          match rest with
          | [] => none
          | '=' :: value => some value
          | value => some value
        applyOption manual spec value state
      | _ => do readShort manual (← applyOption manual spec none state) rest

/-- Reads a word that is no option: the value an option waits for, or the directory. -/
def readArgument (manual : Manual) (word : Text) (state : State) : Except Interruption State :=
  match state.onlyArguments, state.pending with
  | false, some (slot, none) => .ok { state with pending := some (slot, some word) }
  | _, _ =>
    if state.hasDirectory || manual.arguments.isEmpty then .error (.misuse .unknownArgument)
    else do
      let state ← orInterrupt state.settle
      .ok { state with pending := some (.directory, some word), hasDirectory := true }

/-- Reads one word of a command. -/
def readWord (manual : Manual) (word : Text) (state : State) : Except Interruption State :=
  if state.onlyArguments then readArgument manual word state
  else
    match word with
    | ['-', '-'] => .ok { state with onlyArguments := true }
    | '-' :: '-' :: body => readLong manual body state
    | ['-'] => readArgument manual word state
    | '-' :: letters => readShort manual state letters
    | _ => readArgument manual word state

/-- Reads the words of a command. -/
def readWords (manual : Manual) (state : State) : List Text → Except Interruption Values
  | [] => (orInterrupt state.settle).map State.values
  | word :: rest => do readWords manual (← readWord manual word state) rest

/-! ## The whole command line -/

/-- What is to be done. -/
inductive Request where
  | run (command : Command) (values : Values)
  /-- No command was given. -/
  | nothing
  deriving DecidableEq, Repr

/-- The words after the command that shows help: at most one, and that a command. -/
def readHelp : List Text → Interruption
  | [] => .help programManual
  | [word] =>
    if word = helpName then .help helpManual
    else
      match Command.ofName? word with
      | some command => .help command.manual
      | none => .misuse .unknownCommand
  | _ => .misuse .unknownCommand

/-- Reads the words of a command line, where `onlyArguments` says that a lone `--` has been
read. -/
def readProgram (onlyArguments : Bool) : List Text → Except Interruption Request
  | [] => .ok .nothing
  | word :: rest =>
    let isCommand := (Command.ofName? word).isSome || word = helpName
    if onlyArguments then
      .error (.misuse (if isCommand then .unknownArgument else .unknownCommand))
    else if word = helpName then .error (readHelp rest)
    else
      match Command.ofName? word with
      | some command => (readWords command.manual {} rest).map (.run command)
      | none =>
        match word with
        | ['-', '-'] => readProgram true rest
        | '-' :: '-' :: body => do
          let _ ← readLong programManual body {}
          readProgram false rest
        | '-' :: c :: letters => do
          let _ ← readShort programManual {} (c :: letters)
          readProgram false rest
        | _ => .error (.misuse .unknownCommand)

/-- Reads a command line. -/
def parse (words : List Text) : Except Interruption Request := readProgram false words

end StyleLift.CommandLine
