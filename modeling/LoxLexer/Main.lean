import LoxLexer.CommandLine

namespace LoxLexer.Program

def faultOf (e : IO.Error) : IoFault :=
  match e with
  | .noFileOrDirectory .. | .noSuchThing .. => .notFound
  | .inappropriateType _ code _ => if code = 21 ∨ code = -21 then .isDirectory else .notDirectory
  | .invalidArgument _ code _ =>
    if code = 36 ∨ code = -36 then .nameTooLong else .other (toString e)
  | e => .other (toString e)

def attempt (action : IO α) : IO (Except IoFault α) :=
  try return .ok (← action) catch e => return .error (faultOf e)

def readFile (path : String) : IO (Except IoFault ByteArray) :=
  if path.toList.contains '\x00' then return .error .nulInPath
  else attempt (IO.FS.readBinFile path)

partial def readLine (input : IO.FS.Stream) (line : Array UInt8) : IO (Array UInt8) := do
  match (← input.read 1).toList with
  | b :: _ => if b = 10 then return line.push b else readLine input (line.push b)
  | [] => return line

def read? (input : IO.FS.Stream) : IO (Option Read) := do
  match ← attempt (readLine input #[]) with
  | .error fault => return some (.failed fault)
  | .ok line => return if line.isEmpty then none else some (.ofLine line.toList)

def write (out err : ByteArray) : IO Unit := do
  let (stdout, stderr) := (← IO.getStdout, ← IO.getStderr)
  stdout.write out
  stdout.flush
  stderr.write err
  stderr.flush

def handOver (logs : Event → Bool) (part : Handed) : IO Unit := do
  let stderr ← IO.getStderr
  for event in part.events.filter logs do stderr.putStr (event.logLine ++ "\n")
  stderr.flush
  write part.out part.err

partial def rounds (logs : Event → Bool) (input : IO.FS.Stream) (s : Session) :
    IO (Except IoFault Unit) := do
  match ← read? input with
  | none => return .ok ()
  | some read =>
    let (s, result?) := s.round read
    handOver logs s.handed
    match result? with
    | some result => return result
    | none => rounds logs input s.emptied

def converse (logs : Event → Bool) (s : Session) : IO (Except IoFault Unit) := do
  let (s, result) := s.invite
  handOver logs s.handed
  match result with
  | .error fault => return .error fault
  | .ok () => rounds logs (← IO.getStdin) s.emptied

def finish (result : Except IoFault Bool) : IO Status := do
  write .empty (Note.bytes (Note.ofResult result))
  return .ofResult result

def leave (outcome : Outcome) : IO Status := do
  write outcome.out outcome.err
  return outcome.status

def run (args : List String) : IO Status := do
  -- Files are not read through the host here, but below.
  let host := Host.ofText (← (← IO.getStderr).isTty) fun _ => .error .notFound
  match host.parse args with
  | .error outcome => leave outcome
  | .ok o =>
    match o.scripts with
    | [] => finish ((← converse (host.logs o) (host.session o)).map fun _ => false)
    | [script] =>
      let (s, result) := (host.session o).runFile (host.display script) (← readFile script)
      handOver (host.logs o) s.handed
      finish result
    | _ => leave .usage

end LoxLexer.Program

open LoxLexer in
def main (args : List String) : IO UInt32 := do
  match ← Program.attempt (Program.run args) with
  | .ok status => return .ofNat status.code
  | .error fault =>
    (← IO.getStderr).putStr ((Fault.io fault).render ++ "\n")
    return .ofNat Status.ioError.code
