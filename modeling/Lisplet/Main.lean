import Lisplet.Command.Run

namespace Lisplet

def usage : String :=
  "usage: lispc [FILE] [-e EXPR] [--debug] [--emit STAGE] [--max-depth N] [--config FILE]"

def errorNumber (code : UInt32) : Nat := min code.toNat (4294967296 - code.toNat)

def ReadFault.ofNumber? : Nat → Option ReadFault
  | 2 => some .notFound
  | 20 => some .notDirectory
  | 21 => some .isDirectory
  | 36 => some .nameTooLong
  | _ => none

def ReadFault.ofError (e : IO.Error) : ReadFault :=
  let known? := match e with
    | .noFileOrDirectory _ code _ | .inappropriateType _ code _ | .invalidArgument _ code _ =>
      ofNumber? (errorNumber code)
    | _ => none
  known?.getD (.other (toString e))

def readFile (path : String) : IO (Except ReadFault String) := do
  try
    return decodeText (← IO.FS.readBinFile path)
  catch e => return .error (.ofError e)

partial def readAll (stream : IO.FS.Stream) (bytes : ByteArray) : IO ByteArray := do
  let more ← stream.read 65536
  if more.isEmpty then return bytes else readAll stream (bytes ++ more)

def surroundingsOf (i : Command.Invocation) : IO Surroundings := do
  let bare : Surroundings :=
    { read := fun _ => .error .notFound, input := .ok "",
      configHome := ← IO.getEnv "XDG_CONFIG_HOME", home := ← IO.getEnv "HOME", directory := "." }
  let contents ← (i.paths bare).mapM fun path => do return (path, ← readFile path)
  let input ←
    if i.origin = .input then decodeText <$> (do readAll (← IO.getStdin) .empty) else pure (.ok "")
  return { bare with read := fun path => (contents.lookup path).getD (.error .notFound), input }

end Lisplet

open Lisplet in
def main (args : List String) : IO UInt32 := do
  match Command.Request.ofArguments args with
  | .error _ =>
    IO.eprintln usage
    return 2
  | .ok (.help _) =>
    IO.println usage
    return 0
  | .ok .version =>
    IO.println Command.version
    return 0
  | .ok (.compile i) =>
    let s ← surroundingsOf i
    for r in i.log s do IO.eprintln r.line
    let outcome := (Command.Request.compile i).outcome s
    IO.print outcome.stdout
    IO.eprint (Command.line outcome.stderr)
    return outcome.exit.toUInt32
