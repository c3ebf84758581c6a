import LoxLexer.Host

namespace LoxLexer

inductive Ending
  | help
  | version
  | misuse
  deriving DecidableEq

namespace Options

def setVerbose (o : Options String) : Except Ending (Options String) :=
  if o.verbose then .error .misuse else .ok { o with verbose := true }

def setNoColor (o : Options String) : Except Ending (Options String) :=
  if o.noColor then .error .misuse else .ok { o with noColor := true }

def addScript (o : Options String) (script : String) : Except Ending (Options String) :=
  if script.isEmpty then .error .misuse else .ok { o with scripts := o.scripts ++ [script] }

def long (o : Options String) (name : String) : Except Ending (Options String) :=
  match name with
  | "verbose" => o.setVerbose
  | "no-color" => o.setNoColor
  | "help" => .error .help
  | "version" => .error .version
  | _ => .error .misuse

def short (o : Options String) (letter : Char) : Except Ending (Options String) :=
  match letter with
  | 'v' => o.setVerbose
  | 'h' => .error .help
  | 'V' => .error .version
  | _ => .error .misuse

def argument (o : Options String) (arg : String) : Except Ending (Options String) :=
  match arg.toList with
  | '-' :: '-' :: name => o.long (String.ofList name)
  | '-' :: letter :: letters => (letter :: letters).foldlM short o
  | _ => o.addScript arg

/-- Two dashes alone make scripts of all the arguments that follow. -/
def arguments (o : Options String) : List String → Except Ending (Options String)
  | [] => .ok o
  | arg :: args =>
    if arg = "--" then args.foldlM addScript o
    else match o.argument arg with
      | .ok o => o.arguments args
      | .error ending => .error ending

def ofArguments (args : List String) : Except Ending (Options String) :=
  arguments {} args

end Options

def helpText : String :=
"Prints the tokens of a Lox script, or of each line typed at the prompt

Usage: lox-scan [OPTIONS] [script]...

Arguments:
  [script]...  Script to scan. Starts an interactive prompt when omitted

Options:
  -v, --verbose   Log scanner activity to stderr
      --no-color  Never colour diagnostics
  -h, --help      Print help
  -V, --version   Print version
"

def versionText : String := "lox-scan 0.1.0\n"

/-- A misuse is told in words of the reader's own. -/
def Ending.outcome : Ending → Outcome
  | .help => { status := .success, out := helpText.toUTF8 }
  | .version => { status := .success, out := versionText.toUTF8 }
  | .misuse => { status := .misuse, notes := Note.ofBytes Outcome.usageText.toUTF8 }

namespace Host

/-- Arguments and paths that are text, and an environment that asks for no events. -/
def ofText (terminal : Bool) (read : String → Except IoFault ByteArray) : Host String String where
  parse args := (Options.ofArguments args).mapError Ending.outcome
  display := id
  read
  terminal

end Host

def execute (args : List String) (terminal : Bool) (read : String → Except IoFault ByteArray)
    (input : Input) : Outcome :=
  (Host.ofText terminal read).execute args input

end LoxLexer
