/-
Arguments of a command line.  Options are known by their names, long
ones also by a beginning that no other option shares; the value of an
option is the next argument or follows an equals sign.  Behind a double
dash every argument is an operand.
-/
import SketchCompiler.Numeral

namespace SketchCompiler

/-- What an option takes. -/
inductive OptionKind where
  | help
  | switch
  | text
  | integer
  | choice (values : List String)
  deriving DecidableEq, Repr

/-- An option: its names, what it takes, and whether it must be given. -/
structure OptionSpec where
  names : List String
  kind : OptionKind
  required : Bool := false
  deriving DecidableEq, Repr

/-- The operand of a program: none, one value, or a command, which takes
all arguments behind it. -/
inductive Operand where
  | none
  | value (name : String)
  | command (name : String) (choices : List String)
  deriving DecidableEq, Repr

/-- What a program may be called with. -/
structure Usage where
  program : String
  options : List OptionSpec
  operand : Operand
  deriving DecidableEq, Repr

/-- What is wrong with arguments. -/
inductive UsageIssue where
  | required (names : List String)
  | unrecognized (arguments : List String)
  | invalidChoice (argument value : String) (choices : List String)
  | invalidInteger (argument value : String)
  | expectedArgument (argument : String)
  | ignoredArgument (argument value : String)
  | ambiguous (option : String) (names : List String)
  deriving DecidableEq, Repr

/-- The wording of an issue. -/
def UsageIssue.message : UsageIssue → String
  | required names => "the following arguments are required: " ++ ", ".intercalate names
  | unrecognized arguments => "unrecognized arguments: " ++ " ".intercalate arguments
  | invalidChoice argument value choices =>
    "argument " ++ argument ++ ": invalid choice: " ++ Text.quoted value ++ " (choose from "
      ++ ", ".intercalate (choices.map Text.quoted) ++ ")"
  | invalidInteger argument value =>
    "argument " ++ argument ++ ": invalid int value: " ++ Text.quoted value
  | expectedArgument argument => "argument " ++ argument ++ ": expected one argument"
  | ignoredArgument argument value =>
    "argument " ++ argument ++ ": ignored explicit argument " ++ Text.quoted value
  | ambiguous option names =>
    "ambiguous option: " ++ option ++ " could match " ++ ", ".intercalate names

/-- Why a program does not run: its arguments are wrong, or help was
asked for. -/
inductive Refusal where
  | usage (program : String) (issue : UsageIssue)
  | help (program : String)
  deriving DecidableEq, Repr

/-- The option as messages name it. -/
def OptionSpec.label (o : OptionSpec) : String :=
  "/".intercalate o.names

/-- The option takes a value. -/
def OptionSpec.takesValue (o : OptionSpec) : Bool :=
  o.kind ≠ .help ∧ o.kind ≠ .switch

/-- An argument: an operand, the double dash, or an option with the
value behind its equals sign.  An option may be unknown. -/
inductive Argument where
  | operand (text : String)
  | separator
  | option (text : String) (known : Option (OptionSpec × String × Option String))
  deriving DecidableEq, Repr

/-- The argument as it is written. -/
def Argument.text : Argument → String
  | operand s => s
  | separator => "--"
  | option s _ => s

namespace Usage

-- ==== kinds of argument

/-- The names of all options. -/
def names (u : Usage) : List (String × OptionSpec) :=
  u.options.flatMap fun o => o.names.map (·, o)

/-- The option of exactly this name. -/
def option? (u : Usage) (name : String) : Option OptionSpec :=
  u.names.lookup name

/-- A text in front of its first equals sign and behind it. -/
def splitEquals (cs : List Char) : List Char × Option (List Char) :=
  match cs.dropWhile (· != '=') with
  | [] => (cs, none)
  | _ :: behind => (cs.takeWhile (· != '='), some behind)

/-- The options that a shortened name may mean, with the value behind
it. -/
def shortened (u : Usage) (cs : List Char) : List (OptionSpec × String × Option String) :=
  match cs with
  | '-' :: '-' :: _ =>
    let (front, value) := splitEquals cs
    u.names.filterMap fun (name, o) =>
      if front.isPrefixOf name.toList then some (o, name, value.map String.ofList) else none
  | _ =>
    u.names.filterMap fun (name, o) =>
      if name.toList == cs.take 2 then some (o, name, some (String.ofList (cs.drop 2)))
      else if cs.isPrefixOf name.toList then some (o, name, none)
      else none

/-- The text is a negative number. -/
def isNegativeNumber (cs : List Char) : Bool :=
  match cs with
  | '-' :: body =>
    let body := match body.reverse with
      | '\n' :: front => front.reverse
      | _ => body
    let whole := body.takeWhile Text.isDecimal
    match body.drop whole.length with
    | [] => !whole.isEmpty
    | '.' :: places => !places.isEmpty && places.all Text.isDecimal
    | _ => false
  | _ => false

/-- The option that an argument starting with a dash means. -/
def classifyDashed (u : Usage) (arg : String) : Except UsageIssue Argument :=
  let cs := arg.toList
  let (front, value) := splitEquals cs
  match u.option? arg, u.option? (String.ofList front), value, u.shortened cs with
  | some o, _, _, _ => .ok (.option arg (some (o, arg, none)))
  | _, some o, some value, _ =>
    .ok (.option arg (some (o, String.ofList front, some (String.ofList value))))
  | _, _, _, [one] => .ok (.option arg (some one))
  | _, _, _, [] =>
    if isNegativeNumber cs || cs.contains ' ' then .ok (.operand arg) else .ok (.option arg none)
  | _, _, _, many => .error (.ambiguous arg (many.map (·.2.1)))

/-- The kind of an argument. -/
def classify (u : Usage) (arg : String) : Except UsageIssue Argument :=
  match arg.toList with
  | '-' :: _ :: _ => u.classifyDashed arg
  | _ => .ok (.operand arg)

/-- The kinds of arguments; behind a double dash all are operands. -/
def classifyAll (u : Usage) : List String → Except UsageIssue (List Argument)
  | [] => .ok []
  | arg :: rest => do
    if arg == "--" then return .separator :: rest.map .operand
    else
      let first ← u.classify arg
      return first :: (← u.classifyAll rest)

-- ==== arguments

/-- What arguments say: the values of options, the operand, the command
with its arguments, and the arguments without a meaning. -/
structure Parsed where
  settings : List (String × String) := []
  operand : Option String := none
  command : Option (String × List String) := none
  extras : List String := []
  deriving DecidableEq, Repr

/-- The last value given for an option. -/
def Parsed.get? (p : Parsed) (name : String) : Option String :=
  p.settings.reverse.lookup name

/-- Takes the value of an option. -/
def setOption (o : OptionSpec) (value : String) (p : Parsed) : Except UsageIssue Parsed :=
  let name := o.names.getLast?.getD ""
  let p := { p with settings := p.settings ++ [(name, value)] }
  match o.kind with
  | .choice values =>
    if values.contains value then .ok p else .error (.invalidChoice o.label value values)
  | .integer =>
    match Numeral.readInt .ten value with
    | .ok _ => .ok p
    | .error _ => .error (.invalidInteger o.label value)
  | _ => .ok p

/-- Short options written as one argument behind a first that takes no
value.  The only short option there is asks for help. -/
def joinedSwitches (u : Usage) (o : OptionSpec) : List Char → Refusal
  | [] => .help u.program
  | c :: rest =>
    match u.option? (String.ofList ['-', c]) with
    | some o => u.joinedSwitches o rest
    | none => .usage u.program (.ignoredArgument o.label (String.ofList (c :: rest)))

/-- A value was written onto an option that takes none. -/
def joinedSwitch (u : Usage) (o : OptionSpec) (name value : String) : Refusal :=
  match name.toList, value.toList with
  | ['-', _], c :: rest => u.joinedSwitches o (c :: rest)
  | _, _ => .usage u.program (.ignoredArgument o.label value)

/-- Reads the arguments one by one.  `pending` tells that the operand has
not been met. -/
def consume (u : Usage) (pending : Bool) (p : Parsed) : List Argument → Except Refusal Parsed
  | [] => .ok p
  | .operand text :: rest =>
    match pending, u.operand with
    | true, .value _ =>
      let p := { p with operand := some text }
      match rest with
      | .separator :: rest => u.consume false p rest
      | rest => u.consume false p rest
    | true, .command name choices =>
      if choices.contains text then .ok { p with command := some (text, rest.map (·.text)) }
      else .error (.usage u.program (.invalidChoice name text choices))
    | _, _ => u.consume pending { p with extras := p.extras ++ [text] } rest
  | .separator :: rest =>
    match pending, u.operand, rest with
    | true, .value _, .operand text :: rest =>
      u.consume false { p with operand := some text } rest
    | true, .command name choices, _ :: _ =>
      .error (.usage u.program (.invalidChoice name "--" choices))
    | _, _, rest => u.consume pending { p with extras := p.extras ++ ["--"] } rest
  | .option text none :: rest => u.consume pending { p with extras := p.extras ++ [text] } rest
  | .option _ (some (o, name, explicit)) :: rest =>
    if o.takesValue then
      match explicit, rest with
      | some value, rest =>
        match setOption o value p with
        | .ok p => u.consume pending p rest
        | .error issue => .error (.usage u.program issue)
      | none, .operand value :: rest =>
        match setOption o value p with
        | .ok p => u.consume pending p rest
        | .error issue => .error (.usage u.program issue)
      | none, _ => .error (.usage u.program (.expectedArgument o.label))
    else
      match explicit with
      | some value => .error (u.joinedSwitch o name value)
      | none =>
        if o.kind = .help then .error (.help u.program)
        else u.consume pending { p with settings := p.settings ++ [(name, "")] } rest

/-- The names of what must be given and is not. -/
def missing (u : Usage) (p : Parsed) : List String :=
  (match u.operand with
    | .none => []
    | .value name => if p.operand.isNone then [name] else []
    | .command name _ => if p.command.isNone then [name] else [])
  ++ (u.options.filter fun o => o.required && (p.get? (o.names.getLast?.getD "")).isNone).map
    (·.label)

/-- What arguments say; those without a meaning are left to the
caller. -/
def parse (u : Usage) (args : List String) : Except Refusal Parsed := do
  let arguments ← (u.classifyAll args).mapError (.usage u.program)
  let p ← u.consume (u.operand ≠ .none) {} arguments
  match u.missing p with
  | [] => return p
  | names => throw (.usage u.program (.required names))

end Usage

end SketchCompiler
